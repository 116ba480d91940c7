import FlightProcedure.Proofs.Parse.Tokens

/-!
# What a grammar derives

`Spans input item pos stop` says that an item of the grammar can reach from one position of the source
to another. It knows nothing of charts or of preferences: a token may end wherever its terminal allows,
any alternative may be taken, and a repetition may take any number of steps within its bounds.
`Reads` describes the derivations that show it, under a policy that bars alternatives and limits rivals.
-/

namespace FlightProcedure

mutual

/-- `Spans input item pos stop` says that the item can match the source from `pos` to `stop`. -/
inductive Spans (input : Input) : Item → Nat → Nat → Prop where
  | rule {id pos stop : Nat} (hbody : Spans input (.alt (input.alternatives id)) pos stop) :
      Spans input (.rule id) pos stop
  | terminal {id pos stop : Nat} {terminal : Terminal}
      (hterminal : input.grammar.terminals[id]? = some terminal)
      (hstop : stop ∈ input.tokenEnds terminal (input.skip pos)) :
      Spans input (.terminal id) pos stop
  | seq {items : List Item} {pos stop : Nat} (hitems : SpansAll input items pos stop) :
      Spans input (.seq items) pos stop
  | alt {items : List Item} {item : Item} {pos stop : Nat} (hmem : item ∈ items)
      (hitem : Spans input item pos stop) : Spans input (.alt items) pos stop
  | skipped {inner : Item} {pos : Nat} : Spans input (.optional inner) pos pos
  | present {inner : Item} {pos stop : Nat} (hinner : Spans input inner pos stop) :
      Spans input (.optional inner) pos stop
  | rep {inner : Item} {least count pos stop : Nat} {most : Option Nat} (hleast : least ≤ count)
      (hmost : ∀ bound, most = some bound → count ≤ bound)
      (hsteps : SpansAll input (List.replicate count inner) pos stop) :
      Spans input (.rep inner least most) pos stop

/-- `SpansAll input items pos stop` says that the items can match the source one after another. -/
inductive SpansAll (input : Input) : List Item → Nat → Nat → Prop where
  | nil {pos : Nat} : SpansAll input [] pos pos
  | cons {item : Item} {items : List Item} {pos next stop : Nat}
      (hitem : Spans input item pos next) (hitems : SpansAll input items next stop) :
      SpansAll input (item :: items) pos stop

end

structure Policy where
  /-- Whether an item is taken for a part of the source, so that nothing behind it is. -/
  taken : Item → Nat → Nat → Prop
  /-- Whether a match of a rule from one position to another may have these rivals. -/
  rivals : Nat → Nat → Nat → List (List Derivation) → Prop

mutual

/-- `Reads input policy item pos children stop` says that the children show how the item matches the
source from `pos` to `stop`. An alternative is open only if none before it is taken for the same part of
the source, and nothing stands for an optional item only if the item is not taken for nothing. -/
inductive Reads (input : Input) (policy : Policy) : Item → Nat → List Derivation → Nat → Prop where
  | rule {id pos stop : Nat} {children : List Derivation} {rivals : List (List Derivation)}
      (hrivals : policy.rivals id pos stop rivals)
      (hbody : Reads input policy (.alt (input.alternatives id)) pos children stop) :
      Reads input policy (.rule id) pos
        [.node id pos stop (Derivation.spanOf children) children rivals] stop
  | terminal {id pos stop : Nat} {terminal : Terminal}
      (hterminal : input.grammar.terminals[id]? = some terminal)
      (hstop : stop ∈ input.tokenEnds terminal (input.skip pos)) :
      Reads input policy (.terminal id) pos [.token id (input.skip pos) stop] stop
  | seq {items : List Item} {pos stop : Nat} {children : List Derivation}
      (hitems : ReadsAll input policy items pos children stop) :
      Reads input policy (.seq items) pos children stop
  | alt {items before after : List Item} {item : Item} {pos stop : Nat}
      {children : List Derivation} (hitems : items = before ++ item :: after)
      (hopen : ∀ other ∈ before, ¬ policy.taken other pos stop)
      (hitem : Reads input policy item pos children stop) :
      Reads input policy (.alt items) pos children stop
  | skipped {inner : Item} {pos : Nat} (hopen : ¬ policy.taken inner pos pos) :
      Reads input policy (.optional inner) pos [] pos
  | present {inner : Item} {pos stop : Nat} {children : List Derivation}
      (hinner : Reads input policy inner pos children stop) :
      Reads input policy (.optional inner) pos children stop
  | rep {inner : Item} {least count pos stop : Nat} {most : Option Nat}
      {children : List Derivation} (hleast : least ≤ count)
      (hmost : ∀ bound, most = some bound → count ≤ bound)
      (hsteps : ReadsAll input policy (List.replicate count inner) pos children stop) :
      Reads input policy (.rep inner least most) pos children stop

/-- `ReadsAll input policy items pos children stop` says that the children show how the items match the
source one after another. -/
inductive ReadsAll (input : Input) (policy : Policy) : List Item → Nat → List Derivation → Nat → Prop where
  | nil {pos : Nat} : ReadsAll input policy [] pos [] pos
  | cons {item : Item} {items : List Item} {pos next stop : Nat}
      {first rest : List Derivation} (hitem : Reads input policy item pos first next)
      (hitems : ReadsAll input policy items next rest stop) :
      ReadsAll input policy (item :: items) pos (first ++ rest) stop

end

def Policy.free : Policy where
  taken _ _ _ := False
  rivals _ _ _ _ := True

def Policy.ordered (input : Input) (rivals : Nat → Nat → Nat → List (List Derivation) → Prop) : Policy where
  taken := Spans input
  rivals := rivals

namespace Derivation

mutual

def tokens : Derivation → List (Nat × Nat)
  | .token _ start stop => [(start, stop)]
  | .node _ _ _ _ children _ => tokensAll children

def tokensAll : List Derivation → List (Nat × Nat)
  | [] => []
  | derivation :: rest => derivation.tokens ++ tokensAll rest

end

theorem tokens_all_append (first second : List Derivation) :
    tokensAll (first ++ second) = tokensAll first ++ tokensAll second := by
  induction first with
  | nil => rfl
  | cons derivation rest ih => simp only [List.cons_append, tokensAll, ih, List.append_assoc]

end Derivation

/-- Between the tokens, and between the position and the first one, stands ignored text only; the last
token ends at `stop`. -/
def Follows (input : Input) : Nat → List (Nat × Nat) → Nat → Prop
  | pos, [], stop => stop = pos
  | pos, (start, next) :: rest, stop => start = input.skip pos ∧ Follows input next rest stop

variable {input : Input} {policy : Policy}

variable {pos stop : Nat} {item : Item} {children : List Derivation}

theorem Follows.append {first second : List (Nat × Nat)} {next : Nat} (hfirst : Follows input pos first next)
    (hsecond : Follows input next second stop) : Follows input pos (first ++ second) stop := by
  induction first generalizing pos with
  | nil =>
    cases hfirst
    exact hsecond
  | cons token rest ih => exact ⟨hfirst.1, ih hfirst.2⟩

theorem Reads.spans (h : Reads input policy item pos children stop) : Spans input item pos stop := by
  induction h using Reads.rec (motive_2 := fun items pos _ stop _ => SpansAll input items pos stop) with
  | rule _ _ ih => exact .rule ih
  | terminal hterminal hstop => exact .terminal hterminal hstop
  | seq _ ih => exact .seq ih
  | alt hitems _ _ ih => exact .alt (by simp [hitems]) ih
  | skipped => exact .skipped
  | present _ ih => exact .present ih
  | rep hleast hmost _ ih => exact .rep hleast hmost ih
  | nil => exact .nil
  | cons _ _ hitem hitems => exact .cons hitem hitems

theorem Reads.free (h : Reads input policy item pos children stop) : Reads input .free item pos children stop := by
  induction h using Reads.rec
    (motive_2 := fun items pos children stop _ => ReadsAll input .free items pos children stop) with
  | rule _ _ ih => exact .rule trivial ih
  | terminal hterminal hstop => exact .terminal hterminal hstop
  | seq _ ih => exact .seq ih
  | alt hitems _ _ ih => exact .alt hitems (fun _ _ htaken => htaken.elim) ih
  | skipped => exact .skipped fun htaken => htaken.elim
  | present _ ih => exact .present ih
  | rep hleast hmost _ ih => exact .rep hleast hmost ih
  | nil => exact .nil
  | cons _ _ hitem hitems => exact .cons hitem hitems

/-- What holds of tokens, of nodes if it holds of their children, and of two rows in a row if it holds of both,
holds of everything that is read, whatever the item is. -/
@[elab_as_elim]
theorem Reads.induct {motive : Nat → List Derivation → Nat → Prop} (hnil : ∀ pos, motive pos [] pos)
    (happend : ∀ {pos next stop first rest}, motive pos first next → motive next rest stop →
      motive pos (first ++ rest) stop)
    (htoken : ∀ {id pos stop terminal}, input.grammar.terminals[id]? = some terminal →
      stop ∈ input.tokenEnds terminal (input.skip pos) → motive pos [.token id (input.skip pos) stop] stop)
    (hnode : ∀ {id pos stop children rivals}, policy.rivals id pos stop rivals →
      Reads input policy (.alt (input.alternatives id)) pos children stop → motive pos children stop →
      motive pos [.node id pos stop (Derivation.spanOf children) children rivals] stop)
    (h : Reads input policy item pos children stop) : motive pos children stop := by
  induction h using Reads.rec (motive_2 := fun _ pos children stop _ => motive pos children stop) with
  | rule hrivals hbody ih => exact hnode hrivals hbody ih
  | terminal hterminal hstop => exact htoken hterminal hstop
  | skipped | nil => exact hnil _
  | cons _ _ hfirst hrest => exact happend hfirst hrest
  | seq _ ih | alt _ _ _ ih | present _ ih | rep _ _ _ ih => exact ih

theorem Reads.follows (h : Reads input policy item pos children stop) :
    Follows input pos (Derivation.tokensAll children) stop := by
  refine h.induct (fun _ => rfl) (fun hfirst hrest => ?_) (fun _ _ => ⟨rfl, rfl⟩) fun _ _ hchildren => ?_
  · rw [Derivation.tokens_all_append]
    exact hfirst.append hrest
  · simpa [Derivation.tokensAll, Derivation.tokens] using hchildren

end FlightProcedure
