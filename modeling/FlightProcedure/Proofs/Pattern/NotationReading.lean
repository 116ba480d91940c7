import FlightProcedure.Proofs.Pattern.Moves
import FlightProcedure.Proofs.Text.CharSets
import FlightProcedure.Proofs.Text.Cutting

/-!
# Reading notation part by part

A pattern is read from left to right, and each part of its text adds one step to the way through a window.
Read `ReadsAs` first: it says which step a part of the text stands for, wherever the part stands. The parts of
notation that grammars make are quoted texts, groups with and without quantifiers, and a few anchors.
-/

namespace FlightProcedure

open List Option

abbrev Motion := Window → Nat → Nat → Prop

def Motion.next (first second : Motion) : Motion := fun w pos stop =>
  ∃ middle, first w pos middle ∧ second w middle stop

def Motion.rep (motion : Motion) (least : Nat) (most : Option Nat) : Motion := fun w pos stop =>
  ∃ times, least ≤ times ∧ (∀ bound ∈ most, times ≤ bound) ∧ Iterates (motion w) times pos stop

def Window.Spans (w : Window) : List Char → Nat → Nat → Prop
  | [], pos, stop => pos = stop
  | c :: text, pos, stop => w.next? pos = some c ∧ w.Spans text (pos + 1) stop

theorem Window.spans_append {w : Window} {front back : List Char} {pos stop : Nat} :
    w.Spans (front ++ back) pos stop ↔ ∃ middle, w.Spans front pos middle ∧ w.Spans back middle stop := by
  induction front generalizing pos with
  | nil => simp [Spans]
  | cons c front ih => simp [Spans, ih, and_assoc]

theorem Window.next?_eq_head (w : Window) (hstop : w.stop = w.chars.size) (pos : Nat) :
    w.next? pos = (w.chars.toList.drop pos).head? := by
  rw [next?, hstop, head?_drop, Array.getElem?_toList]
  split
  · rfl
  · next hlt => exact (Array.getElem?_eq_none (by omega)).symm

variable {more rest quantifier text : List Char} {n least : Nat} {most : Option Nat} {found : Nat × Option Nat}
  {pattern : Pattern}

theorem Window.spans_iff {w : Window} (hstop : w.stop = w.chars.size) {pos stop : Nat} :
    w.Spans text pos stop ↔ text <+: w.chars.toList.drop pos ∧ stop = pos + text.length := by
  induction text generalizing pos with
  | nil => simp [Spans, eq_comm]
  | cons c text ih =>
    have hrest : w.chars.toList.drop (pos + 1) = (w.chars.toList.drop pos).tail := by simp
    rw [Spans, ih, w.next?_eq_head hstop, hrest, length_cons]
    cases w.chars.toList.drop pos with
    | nil => simp
    | cons d rest => simp [cons_prefix_cons, eq_comm, and_assoc]; omega

namespace Regex

variable {first second : Regex} {w : Window} {pos stop : Nat}

theorem moves_and_then : (first.andThen second).Moves w pos stop ↔
    ∃ middle, first.Moves w pos middle ∧ second.Moves w middle stop := by
  unfold andThen
  split <;> simp [Moves]

theorem moves_union {one other : CharSet} : (oneOf (one.union other)).Moves w pos stop ↔
    (oneOf one).Moves w pos stop ∨ (oneOf other).Moves w pos stop := by
  simp only [Moves, CharSet.mem_iff_holds, CharSet.holds_union, and_or_left, exists_or, or_and_right]

theorem moves_or_else : (first.orElse second).Moves w pos stop ↔ first.Moves w pos stop ∨ second.Moves w pos stop := by
  unfold orElse
  split
  · exact moves_union
  · exact (or_congr_left moves_union).trans or_assoc
  · rfl

theorem moves_single {c : Char} : (oneOf (.singleton c)).Moves w pos stop ↔ w.Spans [c] pos stop := by
  simp only [Moves, Window.Spans, CharSet.mem_iff_holds, CharSet.holds_singleton, exists_eq_right]
  exact and_congr_right fun _ => eq_comm

end Regex

namespace Pattern

theorem escape_meta : ∀ c ∈ quote.metaChars, ∀ rest, escape? (c :: rest) = some (.char c, rest) := by
  intro c hmeta rest
  simp only [quote.metaChars, mem_cons, not_mem_nil, or_false] at hmeta
  rcases hmeta with rfl | rfl | rfl | rfl | rfl | rfl | rfl | rfl | rfl | rfl | rfl | rfl | rfl | rfl | rfl |
    rfl | rfl | rfl <;> rfl

theorem group_head_plain (rest : List Char) : groupHead? {} ('?' :: ':' :: rest) = some (.plain {}, rest) := rfl

def Calm (text : List Char) : Prop := ∀ c ∈ text.head?, c ∉ ['*', '+', '?', '\x7b']

theorem calm_cons {c : Char} : Calm (c :: text) ↔ c ∉ ['*', '+', '?', '\x7b'] := by simp [Calm]

/-- A part of notation stands for a motion: where it is read, what is behind it is read too, and the expression
moves by the motion first. -/
structure ReadsAs (source : List Char) (motion : Motion) : Prop where
  calm : ∀ {more}, Calm more → Calm (source ++ more)
  read : ∀ {fuel groups names more regex final}, Calm more →
    sequence fuel ⟨source ++ more, {}, groups, names⟩ = some (regex, final) →
      ∃ less others, sequence less ⟨more, {}, groups, names⟩ = some (others, final) ∧
        ∀ w pos stop, regex.Moves w pos stop ↔ ∃ middle, motion w pos middle ∧ others.Moves w middle stop

variable {source other : List Char} {motion second : Motion}

theorem ReadsAs.congr (h : ReadsAs source motion) (heq : ∀ w pos stop, motion w pos stop ↔ second w pos stop) :
    ReadsAs source second := by
  rwa [show second = motion from funext fun w => funext fun pos => funext fun stop => propext (heq w pos stop).symm]

theorem ReadsAs.nil : ReadsAs [] fun _ pos stop => pos = stop := ⟨id, fun _ h => ⟨_, _, h, by simp⟩⟩

theorem ReadsAs.append (hfirst : ReadsAs source motion) (hsecond : ReadsAs other second) :
    ReadsAs (source ++ other) (motion.next second) := by
  refine ⟨fun hmore => ?_, fun hmore h => ?_⟩
  · rw [append_assoc]
    exact hfirst.calm (hsecond.calm hmore)
  · rw [append_assoc] at h
    obtain ⟨less, others, hothers, hmoves⟩ := hfirst.read (hsecond.calm hmore) h
    obtain ⟨least, last, hlast, hlater⟩ := hsecond.read hmore hothers
    refine ⟨least, last, hlast, fun w pos stop => ?_⟩
    simp only [hmoves, hlater, Motion.next]
    exact ⟨fun ⟨first, hmotion, next, hnext, hrest⟩ => ⟨next, ⟨first, hmotion, hnext⟩, hrest⟩,
      fun ⟨next, ⟨first, hmotion, hnext⟩, hrest⟩ => ⟨first, hmotion, next, hnext, hrest⟩⟩

/-- A quantifier makes one motion of another, and binds no more than it should. -/
def Modifies (quantifier : List Char) (motion second : Motion) : Prop :=
  ∀ ⦃fuel body more part rest⦄, Calm more → (∀ w pos stop, body.Moves w pos stop ↔ motion w pos stop) →
    quantified {} fuel body (quantifier ++ more) = some (part, rest) →
      rest = more ∧ ∀ w pos stop, part.Moves w pos stop ↔ second w pos stop

theorem quantified_calm {fuel : Nat} {body part : Regex} (hmore : Calm more)
    (h : quantified {} fuel body more = some (part, rest)) : part = body ∧ rest = more := by
  cases fuel with
  | zero => cases h
  | succ fuel =>
    unfold quantified at h
    simp only [Flags.skip, Bool.false_eq_true, if_false] at h
    split at h
    iterate 4 · exact absurd (by simp) (calm_cons.mp hmore)
    cases h
    exact ⟨rfl, rfl⟩

theorem modifies_none : Modifies [] motion motion := by
  intro fuel body more part rest hmore hbody h
  obtain ⟨rfl, rfl⟩ := quantified_calm hmore h
  exact ⟨rfl, hbody⟩

theorem modifies_rep
    (h : ∀ {fuel body more part rest}, Calm more → quantified {} fuel body (quantifier ++ more) = some (part, rest) →
      (∀ bound ∈ most, least ≤ bound) ∧ ∃ less, quantified {} less (.rep body least most true) more = some (part, rest)) :
    Modifies quantifier motion (motion.rep least most) := by
  intro fuel body more part rest hmore hbody hread
  obtain ⟨hbounds, less, hless⟩ := h hmore hread
  obtain ⟨rfl, rfl⟩ := quantified_calm hmore hless
  refine ⟨rfl, fun w pos stop => ?_⟩
  have hsame : body.Moves w = motion w := funext fun pos => funext fun stop => propext (hbody w pos stop)
  rw [Regex.Moves, hsame]
  refine exists_congr fun times => and_congr_right fun _ => and_congr_left fun _ => ?_
  exact forall₂_congr fun bound hbound => by rw [Nat.max_eq_right (hbounds bound hbound)]

theorem not_lazy (hmore : Calm more) (rest : List Char) : more ≠ '?' :: rest := by
  rintro rfl
  exact absurd (by simp) (calm_cons.mp hmore)

theorem quantified_mark {mark : Char}
    (hmark : (mark, least, most) ∈ [('*', 0, none), ('+', 1, none), ('?', 0, some 1)]) :
    Modifies [mark] motion (motion.rep least most) := by
  refine modifies_rep fun {fuel body more part rest} hmore h => ?_
  cases fuel with
  | zero => cases h
  | succ fuel =>
    have hgreedy := not_lazy hmore
    simp only [mem_cons, not_mem_nil, or_false, Prod.mk.injEq] at hmark
    rcases hmark with ⟨rfl, rfl, rfl⟩ | ⟨rfl, rfl, rfl⟩ | ⟨rfl, rfl, rfl⟩ <;>
      (simp only [quantified, Flags.skip, Bool.false_eq_true, if_false, singleton_append] at h
       exact ⟨by simp, fuel, h⟩)

theorem digit_not_blank {c : Char} (h : c.isDigit = true) : isBlank c = false := by
  have hpoint : 48 ≤ c.toNat ∧ c.toNat ≤ 57 := by
    simpa [Char.isDigit, UInt32.le_iff_toNat_le] using h
  have hranges : ∀ range ∈ CharSet.blank.ranges, range.2 < 48 ∨ 57 < range.1 := by decide
  refine Bool.eq_false_iff.mpr fun hblank => ?_
  obtain ⟨range, hrange, hlow, hhigh⟩ := mem_of_ranges_contain hblank
  have hside := hranges range hrange
  omega

theorem count_number (hmore : more.head? ∈ [some ',', some '\x7d']) :
    ((toString n).toList ++ more).head?.any Char.isDigit = true ∧
      ∀ found, countNumber? ((toString n).toList ++ more) = some found → found = (n, more) := by
  have htext : (toString n).toList = Nat.toDigits 10 n := Nat.toList_repr
  obtain ⟨hdigits, hvalue⟩ := digits_value n
  obtain ⟨hsign, hblank⟩ : more.head?.any Char.isDigit = false ∧ more.dropWhile isBlank = more := by
    cases more with
    | nil => simp at hmore
    | cons c more =>
      simp only [head?_cons, mem_cons, some.injEq, not_mem_nil, or_false] at hmore
      rcases hmore with rfl | rfl <;> exact ⟨rfl, rfl⟩
  obtain ⟨hcut, -⟩ := take_while_append hdigits hsign
  rw [htext]
  cases hchars : Nat.toDigits 10 n with
  | nil => exact absurd hchars Nat.toDigits_ne_nil
  | cons c rest =>
    rw [hchars] at hdigits hvalue hcut
    have hc := hdigits c (by simp)
    refine ⟨by simp [hc], fun found h => ?_⟩
    have hstart : (c :: rest ++ more).dropWhile isBlank = c :: rest ++ more := by
      rw [cons_append, dropWhile_cons, digit_not_blank hc]
      rfl
    simp only [countNumber?, hstart, hcut, hvalue, drop_left, hblank] at h
    split at h
    · cases h
    · exact (some.inj h).symm

theorem quantified_count {bounds : List Char}
    (h : ∀ {more found rest}, counts? {} (bounds ++ more) = some (found, rest) →
      found = (least, most) ∧ (∀ bound ∈ most, least ≤ bound) ∧ rest = more) :
    Modifies ('\x7b' :: bounds) motion (motion.rep least most) := by
  refine modifies_rep fun {fuel body more part rest} hmore hread => ?_
  cases fuel with
  | zero => cases hread
  | succ fuel =>
    have hgreedy := not_lazy hmore
    simp only [quantified, Flags.skip, Bool.false_eq_true, if_false, cons_append, bind_eq_bind,
      bind_eq_some_iff] at hread
    obtain ⟨⟨⟨one, other⟩, afterBounds⟩, hcounts, hread⟩ := hread
    obtain ⟨heq, hbounds, rfl⟩ := h hcounts
    cases heq
    dsimp only at hread
    split at hread
    · exact (hgreedy _ rfl).elim
    · exact ⟨hbounds, fuel, hread⟩

theorem counts_once {bounds : List Char} (hbounds : (bounds, most) ∈ [(['\x7d'], some n), ([',', '\x7d'], none)])
    (h : counts? {} ((toString n).toList ++ bounds ++ more) = some (found, rest)) :
    found = (n, most) ∧ (∀ bound ∈ most, n ≤ bound) ∧ rest = more := by
  rw [append_assoc] at h
  simp only [counts?, Flags.skip, Bool.false_eq_true, if_false, bind_eq_bind, bind_eq_some_iff] at h
  obtain ⟨_, hnumber, h⟩ := h
  simp only [mem_cons, not_mem_nil, or_false, Prod.mk.injEq] at hbounds
  rcases hbounds with ⟨rfl, rfl⟩ | ⟨rfl, rfl⟩ <;>
    (cases (count_number (by simp)).2 _ hnumber
     cases h
     exact ⟨rfl, by simp, rfl⟩)

theorem counts_between {m : Nat}
    (h : counts? {} ((toString n).toList ++ ',' :: ((toString m).toList ++ ['\x7d']) ++ more) = some (found, rest)) :
    found = (n, some m) ∧ (∀ bound ∈ some m, n ≤ bound) ∧ rest = more := by
  rw [append_assoc] at h
  simp only [counts?, Flags.skip, Bool.false_eq_true, if_false, bind_eq_bind, bind_eq_some_iff] at h
  obtain ⟨_, hnumber, h⟩ := h
  cases (count_number (by simp)).2 _ hnumber
  obtain ⟨hdigit, hsecond⟩ := @count_number ('\x7d' :: more) m (by simp)
  simp only [cons_append, append_assoc, nil_append] at h
  split at h
  · next heq =>
    rw [heq] at hdigit
    cases hdigit
  · obtain ⟨_, hnumber, h⟩ := bind_eq_some_iff.mp h
    cases hsecond _ hnumber
    obtain ⟨hle, h⟩ := ite_none_right_eq_some.mp h
    cases h
    exact ⟨rfl, by simpa using hle, rfl⟩

theorem reads_part (c : Char) (text : List Char) (part : Regex)
    (hc : c ∉ ['*', '+', '?', '\x7b', '(', ')', '|'])
    (hatom : ∀ fuel more, atom (fuel + 1) {} (c :: text ++ more) = some (part, more))
    (hquantifier : Modifies quantifier (fun w => part.Moves w) second) : ReadsAs (c :: text ++ quantifier) second := by
  refine ⟨fun _ => calm_cons.mpr fun h => hc (mem_append_left ['(', ')', '|'] h),
    fun {fuel groups names more regex final} hmore h => ?_⟩
  cases fuel with
  | zero => cases h
  | succ fuel =>
    rw [append_assoc] at h
    simp only [sequence, Flags.skip, Bool.false_eq_true, if_false, cons_append] at h
    simp only [mem_cons, not_mem_nil, or_false, not_or] at hc
    split at h
    · simp_all
    · simp_all
    · simp_all
    · simp_all
    · simp only [bind_eq_bind, bind_eq_some_iff] at h
      obtain ⟨⟨one, afterOne⟩, hone, ⟨repeated, afterRepeated⟩, hquantified, ⟨others, last⟩, hothers, h⟩ := h
      cases h
      cases fuel with
      | zero => cases hone
      | succ fuel =>
        cases hone.symm.trans (hatom fuel (quantifier ++ more))
        obtain ⟨rfl, hmoves⟩ := hquantifier hmore (fun _ _ _ => Iff.rfl) hquantified
        refine ⟨_, others, hothers, fun w pos stop => Regex.moves_and_then.trans ?_⟩
        simp only [hmoves]

theorem reads_quote (text : List Char) : ReadsAs (quote text) fun w => w.Spans text := by
  induction text with
  | nil => exact .nil
  | cons c text ih =>
    have hchar : ReadsAs (if c ∈ quote.metaChars then ['\\', c] else [c]) fun w => w.Spans [c] := by
      split
      · next hmeta =>
        refine (reads_part '\\' [c] (.oneOf (.singleton c)) (by decide) (fun fuel more => ?_) modifies_none).congr
          fun w pos stop => Regex.moves_single (c := c)
        simp only [atom, cons_append, nil_append, escape_meta c hmeta, bind_eq_bind, bind_some]
        rfl
      · next hplain =>
        have hmarks : c ∉ ['*', '+', '?', '\x7b', '(', ')', '|'] := fun h => hplain (by
          revert h
          simp only [quote.metaChars, mem_cons, not_mem_nil, or_false]
          rintro (rfl | rfl | rfl | rfl | rfl | rfl | rfl) <;> simp)
        refine (reads_part c [] (.oneOf (.singleton c)) hmarks (fun fuel more => ?_)
          modifies_none).congr fun w pos stop => Regex.moves_single (c := c)
        unfold atom
        dsimp only [cons_append, nil_append]
        split <;> first | exact absurd (by decide) hplain | rfl
    rw [quote, flatMap_cons]
    exact (hchar.append ih).congr fun w pos stop => (@Window.spans_append w [c] text pos stop).symm

theorem reads_anchor {source : List Char} {condition : Anchor}
    (h : (source, condition) ∈ [(['^'], .textStart), (['$'], .textEnd), (['\\', 'b'], .wordEdge)]) :
    ReadsAs source fun w pos stop => condition.holds w pos = true ∧ pos = stop := by
  simp only [mem_cons, not_mem_nil, or_false, Prod.mk.injEq] at h
  rcases h with ⟨rfl, rfl⟩ | ⟨rfl, rfl⟩ | ⟨rfl, rfl⟩
  · exact reads_part '^' [] (.anchor .textStart) (by decide) (fun _ _ => rfl) modifies_none
  · exact reads_part '$' [] (.anchor .textEnd) (by decide) (fun _ _ => rfl) modifies_none
  · exact reads_part '\\' ['b'] (.anchor .wordEdge) (by decide) (fun _ _ => rfl) modifies_none

def ReadsInside (inside : List Char) (motion : Motion) : Prop :=
  ∀ ⦃fuel groups names more regex final⦄,
    alternatives fuel ⟨inside ++ ')' :: more, {}, groups, names⟩ = some (regex, final) →
      final = ⟨')' :: more, {}, groups, names⟩ ∧ ∀ w pos stop, regex.Moves w pos stop ↔ motion w pos stop

theorem ReadsAs.read_end (h : ReadsAs source motion) {fuel groups : Nat} {names : List (String × Nat)} {more : List Char}
    {regex : Regex} {final : Reader} (hend : more.head? ∈ [none, some ')', some '|'])
    (hread : sequence fuel ⟨source ++ more, {}, groups, names⟩ = some (regex, final)) :
    final = ⟨more, {}, groups, names⟩ ∧ ∀ w pos stop, regex.Moves w pos stop ↔ motion w pos stop := by
  have hcalm : Calm more := by
    intro c hc
    rw [hc] at hend
    simp only [mem_cons, reduceCtorEq, some.injEq, not_mem_nil, or_false, false_or] at hend
    rcases hend with rfl | rfl <;> decide
  obtain ⟨less, others, hothers, hmoves⟩ := h.read hcalm hread
  have hempty : others = .empty ∧ final = ⟨more, {}, groups, names⟩ := by
    cases less with
    | zero => cases hothers
    | succ less =>
      cases more with
      | nil =>
        cases hothers
        exact ⟨rfl, rfl⟩
      | cons c more =>
        simp only [head?_cons, mem_cons, reduceCtorEq, some.injEq, not_mem_nil, or_false, false_or] at hend
        rcases hend with rfl | rfl <;> cases hothers <;> exact ⟨rfl, rfl⟩
  obtain ⟨rfl, rfl⟩ := hempty
  exact ⟨rfl, fun w pos stop => by simp [hmoves, Regex.Moves]⟩

theorem ReadsAs.inside (h : ReadsAs source motion) : ReadsInside source motion := by
  intro fuel groups names more regex final hread
  cases fuel with
  | zero => cases hread
  | succ fuel =>
    simp only [alternatives, bind_eq_bind, bind_eq_some_iff] at hread
    obtain ⟨⟨first, between⟩, hfirst, hread⟩ := hread
    obtain ⟨rfl, hmoves⟩ := h.read_end (by simp) hfirst
    cases hread
    exact ⟨rfl, hmoves⟩

theorem ReadsInside.bar (hfirst : ReadsAs source motion) (hothers : ReadsInside other second) :
    ReadsInside (source ++ '|' :: other) fun w pos stop => motion w pos stop ∨ second w pos stop := by
  intro fuel groups names more regex final hread
  cases fuel with
  | zero => cases hread
  | succ fuel =>
    rw [append_assoc] at hread
    simp only [alternatives, bind_eq_bind, bind_eq_some_iff] at hread
    obtain ⟨⟨first, between⟩, hread', hread⟩ := hread
    obtain ⟨rfl, hmoves⟩ := hfirst.read_end (by simp) hread'
    simp only [cons_append, bind_eq_some_iff] at hread
    obtain ⟨⟨rest, last⟩, hrest, hread⟩ := hread
    cases hread
    obtain ⟨rfl, hlater⟩ := hothers hrest
    exact ⟨rfl, fun w pos stop => Regex.moves_or_else.trans (or_congr (hmoves w pos stop) (hlater w pos stop))⟩

theorem ReadsInside.group {inside : List Char} (h : ReadsInside inside motion)
    (hquantifier : Modifies quantifier motion second) :
    ReadsAs ('(' :: '?' :: ':' :: (inside ++ ')' :: quantifier)) second := by
  refine ⟨fun _ => calm_cons.mpr (by decide), fun {fuel groups names more regex final} hmore hread => ?_⟩
  cases fuel with
  | zero => cases hread
  | succ fuel =>
    simp only [sequence, Flags.skip, Bool.false_eq_true, if_false, cons_append, append_assoc,
      group_head_plain, bind_eq_bind, bind_some, bind_eq_some_iff] at hread
    obtain ⟨⟨body, inner⟩, hbody, hread⟩ := hread
    obtain ⟨rfl, hmoves⟩ := h hbody
    cases fuel with
    | zero => cases hread
    | succ fuel =>
      simp only [groupEnd, bind_eq_bind, bind_eq_some_iff] at hread
      obtain ⟨⟨repeated, afterRepeated⟩, hquantified, ⟨others, last⟩, hothers, hread⟩ := hread
      cases hread
      obtain ⟨rfl, hsecond⟩ := hquantifier hmore hmoves hquantified
      refine ⟨_, others, hothers, fun w pos stop => Regex.moves_and_then.trans ?_⟩
      simp only [hsecond]

theorem ReadsInside.plain {inside : List Char} (h : ReadsInside inside motion) :
    ReadsAs ('(' :: '?' :: ':' :: (inside ++ [')'])) motion :=
  h.group modifies_none

theorem ReadsAs.of_text (h : ReadsAs source motion) (hread : ofText? (String.ofList source) = some pattern)
    (w : Window) (pos stop : Nat) : pattern.regex.Moves w pos stop ↔ motion w pos stop := by
  simp only [ofText?, bind_eq_bind, bind_eq_some_iff, String.toList_ofList] at hread
  obtain ⟨⟨regex, reader⟩, hregex, hread⟩ := hread
  split at hread
  · cases hread
    simp only [alternatives, bind_eq_bind, bind_eq_some_iff] at hregex
    obtain ⟨⟨first, between⟩, hfirst, hregex⟩ := hregex
    rw [← append_nil source] at hfirst
    obtain ⟨rfl, hmoves⟩ := h.read_end (by simp) hfirst
    cases hregex
    exact hmoves w pos stop
  · cases hread

end Pattern

theorem Pattern.find?_eq_head {w : Window} (hle : w.start ≤ w.stop)
    (hstart : ∀ pos stop, pattern.regex.Moves w pos stop → pos = w.start) :
    pattern.find? w w.start = ((pattern.regex.run w ⟨w.start, []⟩).head?).map fun t => (w.start, t) := by
  have hnone : ∀ pos, pos ≠ w.start → pattern.regex.run w ⟨pos, []⟩ = [] := fun pos hpos =>
    eq_nil_iff_forall_not_mem.mpr fun t ht => hpos (hstart pos t.pos (pattern.regex.run_moves w _ t ht))
  have hlater : ∀ fuel pos, w.start < pos → pattern.regex.search w fuel pos = none := by
    intro fuel
    induction fuel with
    | zero =>
      intro pos hpos
      rw [Regex.search, hnone pos (by omega)]
    | succ fuel ih =>
      intro pos hpos
      rw [Regex.search, hnone pos (by omega)]
      exact ih _ (by omega)
  have hsearch : ∀ fuel, pattern.regex.search w fuel w.start =
      ((pattern.regex.run w ⟨w.start, []⟩).head?).map fun t => (w.start, t) := by
    intro fuel
    rw [Regex.search.eq_def]
    dsimp only
    cases pattern.regex.run w ⟨w.start, []⟩ with
    | cons t rest => rfl
    | nil =>
      cases fuel with
      | zero => rfl
      | succ fuel => exact hlater fuel _ (by omega)
  unfold find? Regex.find?
  rw [if_neg (by omega)]
  split
  · rw [if_pos (Nat.le_refl _)]
    exact hsearch 0
  · exact hsearch _

theorem Pattern.find?_moves {w : Window} (hstart : ∀ pos stop, pattern.regex.Moves w pos stop → pos = w.start) :
    (∀ found, pattern.find? w w.start = some found → found.1 = w.start ∧ pattern.regex.Moves w w.start found.2.pos) ∧
    (w.start ≤ w.stop → (∃ stop, pattern.regex.Moves w w.start stop) →
      ∃ found, pattern.find? w w.start = some found) := by
  refine ⟨fun found h => ?_, fun hle ⟨stop, h⟩ => ?_⟩
  · have hle : w.start ≤ w.stop := by
      refine Nat.le_of_not_lt fun hlt => ?_
      rw [find?, Regex.find?, if_pos hlt] at h
      cases h
    rw [find?_eq_head hle hstart] at h
    obtain ⟨t, ht, rfl⟩ := map_eq_some_iff.mp h
    exact ⟨rfl, pattern.regex.run_moves w _ t (mem_of_head? ht)⟩
  · rw [find?_eq_head hle hstart]
    obtain ⟨t, ht, -⟩ := (Regex.reaches_run (t := ⟨w.start, []⟩) hle).mpr h
    cases hrun : pattern.regex.run w ⟨w.start, []⟩ with
    | nil => simp [hrun] at ht
    | cons first rest => exact ⟨_, rfl⟩

end FlightProcedure
