/-!
# Computations that may fail

What is known of the parts of a computation in `Except` whose outcome is known.
-/

namespace FlightProcedure

open List

variable {ε α β : Type}

theorem ok_bind (value : α) (next : α → Except ε β) : (Except.ok value >>= next) = next value := rfl

variable {result start : β} {step : β → α → Except ε β} {items : List α} {next : α → Except ε β} {cause : ε}
  {value : α}

theorem bind_eq_ok {first : Except ε α} (h : first >>= next = .ok result) :
    ∃ value, first = .ok value ∧ next value = .ok result := by
  cases first with
  | error e => cases h
  | ok value => exact ⟨value, rfl, h⟩

theorem bind_eq_ok_iff {first : Except ε α} :
    first >>= next = .ok result ↔ ∃ value, first = .ok value ∧ next value = .ok result := by
  refine ⟨bind_eq_ok, ?_⟩
  rintro ⟨value, rfl, h⟩
  exact h

theorem error_if_eq_ok {p : Prop} [Decidable p] {outcome : Except ε α} :
    (if p then .error cause else outcome) = .ok value ↔ ¬ p ∧ outcome = .ok value := by
  split <;> simp_all

theorem ok_if_eq_ok {p : Prop} [Decidable p] {found : α} :
    (if p then Except.ok found else .error cause) = .ok value ↔ p ∧ found = value := by
  split <;> simp_all

theorem eq_ok_of_to_option {outcome : Except ε α} (h : outcome.toOption = some value) :
    outcome = .ok value := by
  cases outcome with
  | error e => cases h
  | ok other => exact congrArg Except.ok (Option.some.inj h)

theorem ok_of_any {outcome : Except ε α} {check : α → Bool} (h : outcome.toOption.any check = true) :
    ∃ value, outcome = .ok value ∧ check value = true := by
  cases outcome with
  | error cause => cases h
  | ok value => exact ⟨value, rfl, h⟩

def Ends (good : α → Prop) (fair : ε → Prop) : Except ε α → Prop
  | .ok value => good value
  | .error cause => fair cause

section

variable {good : α → Prop} {fair : ε → Prop}

theorem Ends.ok {value : α} (h : good value) : Ends good fair (.ok value) := h

theorem Ends.error {cause : ε} (h : fair cause) : Ends good fair (.error cause) := h

theorem Ends.bind {fine : β → Prop} {first : Except ε α} (h : Ends good fair first)
    (hnext : ∀ value, good value → Ends fine fair (next value)) : Ends fine fair (first >>= next) := by
  cases first with
  | error cause => exact h
  | ok value => exact hnext value h

theorem ends_somehow (outcome : Except ε α) : Ends (fun _ => True) (fun _ => True) outcome := by
  cases outcome <;> trivial

end

theorem foldl_m_invariant (holds : β → Prop)
    (hstep : ∀ state item next, item ∈ items → holds state → step state item = .ok next → holds next)
    (hstart : holds start) (h : items.foldlM step start = .ok result) : holds result := by
  induction items generalizing start with
  | nil =>
    cases h
    exact hstart
  | cons item items ih =>
    rw [foldlM_cons] at h
    obtain ⟨next, hnext, hrest⟩ := bind_eq_ok h
    exact ih (fun state item next hmem => hstep state item next (by simp [hmem]))
      (hstep start item next (by simp) hstart hnext) hrest

theorem foldl_m_ok (holds : β → Prop)
    (hstep : ∀ state item, item ∈ items → holds state → ∃ next, step state item = .ok next ∧ holds next)
    (hstart : holds start) : ∃ result, items.foldlM step start = .ok result ∧ holds result := by
  induction items generalizing start with
  | nil => exact ⟨start, rfl, hstart⟩
  | cons item items ih =>
    obtain ⟨next, hnext, hholds⟩ := hstep start item mem_cons_self hstart
    rw [foldlM_cons, hnext, ok_bind]
    exact ih (fun state item hmem => hstep state item (mem_cons_of_mem _ hmem)) hholds

theorem foldl_m_each (h : items.foldlM step start = .ok result) {item : α} (hmem : item ∈ items) :
    ∃ state next, step state item = .ok next := by
  induction items generalizing start with
  | nil => cases hmem
  | cons first items ih =>
    rw [foldlM_cons] at h
    obtain ⟨next, hnext, hrest⟩ := bind_eq_ok h
    rcases mem_cons.mp hmem with rfl | hmem
    · exact ⟨start, next, hnext⟩
    · exact ih hrest hmem

theorem foldl_m_eq_error (h : items.foldlM step start = .error cause) :
    ∃ before item after state, items = before ++ item :: after ∧
      before.foldlM step start = .ok state ∧ step state item = .error cause := by
  induction items generalizing start with
  | nil => cases h
  | cons item items ih =>
    cases hfirst : step start item with
    | error other =>
      rw [foldlM_cons, hfirst] at h
      cases h
      exact ⟨[], item, items, start, rfl, rfl, hfirst⟩
    | ok next =>
      rw [foldlM_cons, hfirst, ok_bind] at h
      obtain ⟨before, later, after, state, rfl, hbefore, hlater⟩ := ih h
      refine ⟨item :: before, later, after, state, rfl, ?_, hlater⟩
      rw [foldlM_cons, hfirst, ok_bind]
      exact hbefore

theorem map_m_ok_iff : (∃ found, items.mapM next = .ok found) ↔ ∀ item ∈ items, ∃ value, next item = .ok value := by
  induction items with
  | nil => simp [pure, Except.pure]
  | cons item items ih =>
    rw [forall_mem_cons, ← ih, mapM_cons]
    cases next item <;> cases items.mapM next <;> simp [bind, Except.bind, pure, Except.pure]

theorem map_m_eq_ok {γ : Type} {name : α → γ} {label : β → γ} {found : List β} (h : items.mapM next = .ok found)
    (hlabel : ∀ {item value}, next item = .ok value → label value = name item) :
    found.map label = items.map name ∧ ∀ value ∈ found, ∃ item ∈ items, next item = .ok value := by
  induction items generalizing found with
  | nil =>
    cases h
    exact ⟨rfl, fun _ h => nomatch h⟩
  | cons item items ih =>
    rw [mapM_cons] at h
    obtain ⟨value, hvalue, h⟩ := bind_eq_ok h
    obtain ⟨values, hvalues, h⟩ := bind_eq_ok h
    cases h
    obtain ⟨hlabels, hmem⟩ := ih hvalues
    refine ⟨by rw [map_cons, map_cons, hlabels, hlabel hvalue], ?_⟩
    refine forall_mem_cons.mpr ⟨⟨item, mem_cons_self, hvalue⟩, fun other hother => ?_⟩
    exact (hmem other hother).imp fun _ h => ⟨mem_cons_of_mem _ h.1, h.2⟩

end FlightProcedure
