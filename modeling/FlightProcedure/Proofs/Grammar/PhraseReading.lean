import FlightProcedure.Proofs.Grammar.Phrases

/-!
# Exactly the phrases are read

Whatever the readers of a body take from a list of tokens is a phrase of their level
(`Body.readers_take_phrases`). With `Phrase.of_tokens` it follows that the body of a definition is read
from the phrases of a choice and from nothing else (`Body.of_tokens_iff_phrase`).
-/

namespace FlightProcedure

open List

/-- `Phrase.Leads level bodies tokens rest` says that a phrase comes first among the tokens and `rest` is what
follows it. -/
def Phrase.Leads (level : Level) (bodies : List Body) (tokens rest : List BodyToken) : Prop :=
  ∃ taken, Phrase level bodies taken ∧ tokens = taken ++ rest

namespace Body

variable {fuel : Nat} {item body : Body} {tokens rest : List BodyToken}

theorem read_count_sound {count : Nat} (h : readCount tokens = .ok (count, rest)) : tokens = .number count :: rest := by
  unfold readCount at h
  split at h <;> cases h
  rfl

theorem read_quantifiers_sound (h : readQuantifiers fuel item tokens = .ok (body, rest)) :
    ∃ quantifiers : List Quantifier, tokens = quantifiers.flatMap Quantifier.tokens ++ rest ∧
      body = quantifiers.foldl Quantifier.apply item := by
  induction fuel generalizing item tokens with
  | zero =>
    cases h
    exact ⟨[], rfl, rfl⟩
  | succ fuel ih =>
    -- One quantifier stands in front of those that the rest of the reading takes.
    have further {more : List BodyToken} (quantifier : Quantifier)
        (hmore : readQuantifiers fuel (quantifier.apply item) more = .ok (body, rest)) :
        ∃ quantifiers : List Quantifier,
          quantifier.tokens ++ more = quantifiers.flatMap Quantifier.tokens ++ rest ∧
            body = quantifiers.foldl Quantifier.apply item := by
      obtain ⟨quantifiers, rfl, hbody⟩ := ih hmore
      exact ⟨quantifier :: quantifiers, by rw [flatMap_cons, append_assoc], hbody⟩
    unfold readQuantifiers at h
    split at h
    · exact further .star h
    · exact further .plus h
    · exact further .question h
    · obtain ⟨⟨least, afterLeast⟩, hleast, hrange⟩ := bind_eq_ok h
      cases read_count_sound hleast
      dsimp only at hrange
      split at hrange
      · obtain ⟨⟨most, afterMost⟩, hmost, hmore⟩ := bind_eq_ok hrange
        cases read_count_sound hmost
        exact further (.between least most) hmore
      · exact further (.times least) hrange
    · cases h
      exact ⟨[], rfl, rfl⟩

/-- What the readers take with some fuel is a phrase. Only the items of an alternative may be none at all. -/
structure ReadersTakePhrases (fuel : Nat) : Prop where
  alternatives : ∀ tokens bodies rest, readAlternatives fuel tokens = .ok (bodies, rest) →
    Phrase.Leads .choice bodies tokens rest
  items : ∀ tokens bodies rest, readItems fuel tokens = .ok (bodies, rest) →
    bodies = [] ∧ rest = tokens ∨ Phrase.Leads .row bodies tokens rest
  atom : ∀ tokens body rest, readAtom fuel tokens = .ok (some (body, rest)) → Phrase.Leads .atom [body] tokens rest

namespace ReadersTakePhrases

variable {bodies : List Body}

theorem next_alternatives (h : ReadersTakePhrases fuel)
    (hread : readAlternatives (fuel + 1) tokens = .ok (bodies, rest)) :
    Phrase.Leads .choice bodies tokens rest := by
  rw [readAlternatives] at hread
  obtain ⟨⟨items, afterItems⟩, hitems, hafter⟩ := bind_eq_ok hread
  obtain ⟨hsome, hothers⟩ := error_if_eq_ok.mp hafter
  obtain ⟨rfl, -⟩ | ⟨taken, hrow, rfl⟩ := h.items _ _ _ hitems
  · exact absurd rfl hsome
  split at hothers
  · obtain ⟨⟨others, afterOthers⟩, hmore, hresult⟩ := bind_eq_ok hothers
    cases hresult
    obtain ⟨takenMore, hchoice, rfl⟩ := h.alternatives _ _ _ hmore
    exact ⟨_, .or hrow hchoice, by rw [append_assoc, cons_append]⟩
  · cases hothers
    exact ⟨taken, .one hrow, rfl⟩

theorem next_items (h : ReadersTakePhrases fuel) (hread : readItems (fuel + 1) tokens = .ok (bodies, rest)) :
    bodies = [] ∧ rest = tokens ∨ Phrase.Leads .row bodies tokens rest := by
  rw [readItems] at hread
  obtain ⟨found, hatom, hread⟩ := bind_eq_ok hread
  cases found with
  | none =>
    cases hread
    exact .inl ⟨rfl, rfl⟩
  | some found =>
    obtain ⟨⟨item, afterItem⟩, hquantifiers, hread⟩ := bind_eq_ok hread
    obtain ⟨⟨items, afterItems⟩, hitems, hread⟩ := bind_eq_ok hread
    cases hread
    obtain ⟨taken, hphrase, rfl⟩ := h.atom _ _ _ hatom
    obtain ⟨quantifiers, hafter, rfl⟩ := read_quantifiers_sound hquantifiers
    have hitem := Phrase.quantified hphrase quantifiers
    right
    obtain ⟨rfl, rfl⟩ | ⟨takenMore, hrow, rfl⟩ := h.items _ _ _ hitems
    · exact ⟨_, .last hitem, by rw [append_assoc, ← hafter]⟩
    · exact ⟨_, .next hitem hrow, by rw [append_assoc, append_assoc, ← hafter]⟩

theorem next_atom (h : ReadersTakePhrases fuel)
    (hread : readAtom (fuel + 1) tokens = .ok (some (body, rest))) : Phrase.Leads .atom [body] tokens rest := by
  unfold readAtom at hread
  split at hread
  · cases hread
    exact ⟨_, .symbol _, rfl⟩
  · cases hread
    exact ⟨_, .literal _, rfl⟩
  · cases hread
    exact ⟨_, .pattern _ _, rfl⟩
  · obtain ⟨⟨inner, afterInner⟩, hinner, hclose⟩ := bind_eq_ok hread
    obtain ⟨taken, hphrase, rfl⟩ := h.alternatives _ _ _ hinner
    dsimp only at hclose
    split at hclose <;> cases hclose
    exact ⟨_, .group hphrase, by simp⟩
  · obtain ⟨⟨inner, afterInner⟩, hinner, hclose⟩ := bind_eq_ok hread
    obtain ⟨taken, hphrase, rfl⟩ := h.alternatives _ _ _ hinner
    dsimp only at hclose
    split at hclose <;> cases hclose
    exact ⟨_, .option hphrase, by simp⟩
  · cases hread

end ReadersTakePhrases

theorem readers_take_phrases (fuel : Nat) : ReadersTakePhrases fuel := by
  induction fuel with
  | zero =>
    refine ⟨fun _ _ _ h => (nomatch h), fun _ _ _ h => ?_, fun _ _ _ h => (nomatch h)⟩
    cases h
    exact .inl ⟨rfl, rfl⟩
  | succ fuel ih =>
    exact ⟨fun _ _ _ => ih.next_alternatives, fun _ _ _ => ih.next_items, fun _ _ _ => ih.next_atom⟩

/-- The tokens of a definition are read as a body if and only if they are a phrase of a choice that denotes
the body. -/
theorem of_tokens_iff_phrase (definition : String) (tokens : List BodyToken) (body : Body) :
    ofTokens definition tokens = .ok body ↔
      ∃ bodies, Phrase .choice bodies tokens ∧ body = ofAlternatives bodies := by
  constructor
  · intro h
    obtain ⟨⟨bodies, rest⟩, hread, hend⟩ := bind_eq_ok h
    obtain ⟨taken, hphrase, htokens⟩ := (readers_take_phrases _).alternatives _ _ _ hread
    cases rest with
    | cons token rest => cases hend
    | nil =>
      cases hend
      exact ⟨bodies, by rwa [htokens, append_nil], rfl⟩
  · rintro ⟨bodies, hphrase, rfl⟩
    exact hphrase.of_tokens definition

end Body

end FlightProcedure
