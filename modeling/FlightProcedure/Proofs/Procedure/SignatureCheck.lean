import FlightProcedure.Proofs.Parse.Conformance
import FlightProcedure.Proofs.Procedure.Signature

/-!
# Checking definitions against signatures

`Body.after keepTokens body states` computes the slots that may be left once the labels that a body
allows have filled some of the slots they began with. A definition conforms to the signature of its rule
if no slot that has to be filled is left. Read `Definitions.Conforms` first: `fits_accepted` says that at
a sound node of a rule that conforms to its signature the children fill the slots.
-/

namespace FlightProcedure

open List

def Label.role? : Label → Option Role
  | .token terminal => some (.token terminal)
  | .rule name => (RuleKind.ofName? name).bind RuleKind.role?

def Label.Plays (roles : List Role) (label : Label) : Prop :=
  ∀ role, label.role? = some role → ∃ other ∈ roles, other.covers role = true

def coversAll (roles shown : List Role) : Bool := shown.all fun role => roles.any (·.covers role)

def shownBy (name : String) : List Role :=
  match RuleKind.ofName? name with
  | some kind => kind.shows
  | none => [.token name]

namespace Slot

/-- The slots that are left once the first that fits has taken a part that plays one of the roles
shown. -/
def step (shown : List Role) : List Slot → Option (List Slot)
  | [] => none
  | .one roles :: slots => if coversAll roles shown then some slots else none
  | .opt roles :: slots => if coversAll roles shown then some slots else step shown slots
  | .many roles :: slots =>
    if coversAll roles shown then some (.many roles :: slots) else step shown slots
  | .pairs first second :: slots =>
    if coversAll first shown then some (.one second :: .pairs first second :: slots)
    else step shown slots

def isOptional : Slot → Bool
  | .one _ => false
  | _ => true

/-- The choices of slots, with more of them as long as a step leads to new ones. The fuel bounds the
number of steps. -/
def closure (next : List (List Slot) → Option (List (List Slot))) : Nat → List (List Slot) → Option (List (List Slot))
  | 0, _ => none
  | fuel + 1, states => do
    let more ← next states
    if more.all (states.contains ·) then some states
    else closure next fuel (states ++ more.filter fun state => !states.contains state)

end Slot

namespace Body

mutual

def after (keepTokens : Bool) : Body → List (List Slot) → Option (List (List Slot))
  | .symbol name, states => states.mapM (Slot.step (shownBy name))
  | .literal text, states =>
    if keepTokens then states.mapM (Slot.step [.token text]) else some states
  | .pattern _ _, states => if keepTokens then none else some states
  | .seq bodies, states => afterAll keepTokens bodies states
  | .alt bodies, states => afterAny keepTokens bodies states
  | .optional inner, states => do
    let more ← inner.after keepTokens states
    some (states ++ more)
  | .rep inner least _, states =>
    if least = 0 then Slot.closure (fun states => inner.after keepTokens states) 8 states
    else do
      let more ← inner.after keepTokens states
      Slot.closure (fun states => inner.after keepTokens states) 8 more

def afterAll (keepTokens : Bool) : List Body → List (List Slot) → Option (List (List Slot))
  | [], states => some states
  | body :: bodies, states => do
    let next ← body.after keepTokens states
    afterAll keepTokens bodies next

def afterAny (keepTokens : Bool) : List Body → List (List Slot) → Option (List (List Slot))
  | [], _ => some []
  | body :: bodies, states => do
    let first ← body.after keepTokens states
    let others ← afterAny keepTokens bodies states
    some (first ++ others)

end

mutual

def shows (keepTokens : Bool) : Body → List Role
  | .symbol name => shownBy name
  | .literal text => if keepTokens then [.token text] else []
  | .pattern regex flags => if keepTokens then [.token ("/" ++ regex ++ "/" ++ flags)] else []
  | .seq bodies => showsAll keepTokens bodies
  | .alt bodies => showsAll keepTokens bodies
  | .optional inner => inner.shows keepTokens
  | .rep inner _ _ => inner.shows keepTokens

def showsAll (keepTokens : Bool) : List Body → List Role
  | [] => []
  | body :: bodies => body.shows keepTokens ++ showsAll keepTokens bodies

end

def fills (keepTokens : Bool) (body : Body) (slots : List Slot) : Bool :=
  match body.after keepTokens [slots] with
  | some states => states.all fun state => state.all Slot.isOptional
  | none => false

end Body

/-- Whether a definition conforms to the signature of the rule: each of its alternatives fills one of the
choices of slots, and a match of it shows only roles of the rule. -/
def Definition.conforms (definition : Definition) : Bool :=
  match RuleKind.ofName? definition.name with
  | none => false
  | some kind =>
    coversAll kind.shows kind.role?.toList &&
    (!definition.shaping.inlineSingle || coversAll kind.shows (definition.body.shows definition.shaping.keepTokens)) &&
    match kind.signature? with
    | none => true
    | some signature =>
      definition.body.alternatives.all fun body =>
        signature.choices.any (body.fills definition.shaping.keepTokens)

/-- Every rule conforms to its signature, and no terminal has the name of a rule. -/
structure Definitions.Conforms (defs : Definitions) : Prop where
  rules : ∀ definition ∈ defs.rules, definition.conforms = true
  terminals : ∀ definition ∈ defs.terminals, RuleKind.ofName? definition.name = none

section

variable {defs : Definitions} {keepTokens : Bool} {body : Body} {bodies : List Body} {label : Label}
  {labels : List Label} {roles shown : List Role} {slots middle last : List Slot} {states left : List (List Slot)}

theorem Role.covers_trans {first second third : Role} (h₁ : first.covers second = true)
    (h₂ : second.covers third = true) : first.covers third = true := by
  cases second <;> cases third <;> simp_all [Role.covers]

theorem Label.Plays.of_covers (hplays : label.Plays shown)
    (h : coversAll roles shown = true) : label.Plays roles := by
  intro role hrole
  obtain ⟨middle, hmiddle, hcovers⟩ := hplays role hrole
  simp only [coversAll, all_eq_true, any_eq_true] at h
  obtain ⟨other, hother, hover⟩ := h middle hmiddle
  exact ⟨other, hother, Role.covers_trans hover hcovers⟩

theorem Label.Plays.mono (hplays : label.Plays shown) (h : ∀ role ∈ shown, role ∈ roles) : label.Plays roles := by
  intro role hrole
  obtain ⟨other, hother, hcovers⟩ := hplays role hrole
  exact ⟨other, h other hother, hcovers⟩

theorem Label.plays_token (terminal : String) : (Label.token terminal).Plays [.token terminal] := by
  intro role hrole
  cases hrole
  exact ⟨_, mem_singleton_self _, by simp [Role.covers]⟩

/-- `Leads slots labels left` says that once the labels are taken it is enough to fill the slots that are
left. -/
def Leads (slots : List Slot) (labels : List Label) (left : List Slot) : Prop :=
  ∀ rest, Accepts Label.Plays left rest → Accepts Label.Plays slots (labels ++ rest)

theorem Leads.refl (slots : List Slot) : Leads slots [] slots := fun _ h => h

theorem Leads.trans {more : List Label} (h₁ : Leads slots labels middle) (h₂ : Leads middle more last) :
    Leads slots (labels ++ more) last := by
  intro rest h
  rw [append_assoc]
  exact h₁ _ (h₂ _ h)

theorem leads_of_step (hplays : label.Plays shown) (h : Slot.step shown slots = some last) :
    Leads slots [label] last := by
  intro rest hrest
  fun_induction Slot.step shown slots with
  | case1 => cases h
  | case2 roles slots hcovers =>
    cases h
    exact ⟨label, rest, rfl, hplays.of_covers hcovers, hrest⟩
  | case3 => cases h
  | case4 roles slots hcovers =>
    cases h
    exact .inr ⟨label, rest, rfl, hplays.of_covers hcovers, hrest⟩
  | case5 roles slots hcovers ih => exact .inl (ih h)
  | case6 roles slots hcovers =>
    cases h
    obtain ⟨front, others, rfl, hfront, hothers⟩ := hrest
    refine ⟨label :: front, others, rfl, ?_, hothers⟩
    simpa using ⟨hplays.of_covers hcovers, hfront⟩
  | case7 roles slots hcovers ih => exact ⟨[], _, rfl, by simp, ih h⟩
  | case8 first second slots hcovers =>
    cases h
    obtain ⟨part, others, rfl, hpart, front, others, rfl, hfront, hothers⟩ := hrest
    exact ⟨label :: part :: front, others, rfl, ⟨hplays.of_covers hcovers, hpart, hfront⟩, hothers⟩
  | case9 first second slots hcovers ih => exact ⟨[], _, rfl, trivial, ih h⟩

theorem accepts_nil {α : Type} {plays : List Role → α → Prop} (h : slots.all Slot.isOptional = true) : Accepts plays slots [] := by
  induction slots with
  | nil => rfl
  | cons slot slots ih =>
    rw [all_cons, Bool.and_eq_true] at h
    have hrest := ih h.2
    cases slot with
    | one roles => cases h.1
    | opt roles => exact .inl hrest
    | many roles => exact ⟨[], [], rfl, by simp, hrest⟩
    | pairs first second => exact ⟨[], [], rfl, trivial, hrest⟩

theorem closure_closed {next : List (List Slot) → Option (List (List Slot))} {fuel : Nat}
    (h : Slot.closure next fuel states = some left) :
    (∀ state ∈ states, state ∈ left) ∧ ∃ more, next left = some more ∧ ∀ state ∈ more, state ∈ left := by
  induction fuel generalizing states with
  | zero => cases h
  | succ fuel ih =>
    simp only [Slot.closure, Option.bind_eq_bind, Option.bind_eq_some_iff] at h
    obtain ⟨more, hmore, h⟩ := h
    split at h
    · next hall =>
      cases h
      exact ⟨fun _ hmem => hmem, more, hmore, by simpa using hall⟩
    · obtain ⟨hsub, hclosed⟩ := ih h
      exact ⟨fun state hmem => hsub state (mem_append_left _ hmem), hclosed⟩

theorem mem_shows_all {role : Role} :
    role ∈ Body.showsAll keepTokens bodies ↔ ∃ body ∈ bodies, role ∈ body.shows keepTokens := by
  induction bodies with
  | nil => simp [Body.showsAll]
  | cons body bodies ih => simp [Body.showsAll, ih]

theorem mem_shows_replicate {count : Nat} {role : Role}
    (h : role ∈ Body.showsAll keepTokens (List.replicate count body)) : role ∈ body.shows keepTokens := by
  obtain ⟨other, hother, hrole⟩ := mem_shows_all.mp h
  rwa [eq_of_mem_replicate hother] at hrole

theorem conforms_kind (hconforms : defs.Conforms) {definition : Definition} (hmem : definition ∈ defs.rules) :
    ∃ kind, RuleKind.ofName? definition.name = some kind ∧ coversAll kind.shows kind.role?.toList = true ∧
      (definition.shaping.inlineSingle = true →
        coversAll kind.shows (definition.body.shows definition.shaping.keepTokens) = true) ∧
      ∀ signature, kind.signature? = some signature → ∀ body ∈ definition.body.alternatives,
        ∃ slots ∈ signature.choices, body.fills definition.shaping.keepTokens slots = true := by
  have h := hconforms.rules definition hmem
  unfold Definition.conforms at h
  split at h
  · cases h
  · next kind hkind =>
    simp only [Bool.and_eq_true, Bool.or_eq_true, Bool.not_eq_true'] at h
    obtain ⟨⟨hrole, hshown⟩, hchoices⟩ := h
    refine ⟨kind, hkind, hrole, fun hinline => ?_, fun signature hsignature => ?_⟩
    · simpa [hinline] using hshown
    · simpa [hsignature, all_eq_true, any_eq_true] using hchoices

theorem Fits.plays (hconforms : defs.Conforms) (h : Fits defs keepTokens body labels) :
    ∀ label ∈ labels, label.Plays (body.shows keepTokens) := by
  induction h using Fits.rec (motive_2 := fun keepTokens bodies labels _ =>
      ∀ label ∈ labels, label.Plays (Body.showsAll keepTokens bodies)) with
  | rule hmem =>
    obtain ⟨kind, hkind, hrole, -, -⟩ := conforms_kind hconforms hmem
    rw [forall_mem_singleton, Body.shows, shownBy, hkind]
    refine Label.Plays.of_covers (fun role hplayed => ?_) hrole
    rw [Label.role?, hkind] at hplayed
    exact ⟨role, by simpa using hplayed, by cases role <;> simp [Role.covers]⟩
  | inlined hmem hinline _ ih =>
    intro label hlabel
    obtain ⟨kind, hkind, -, hshown, -⟩ := conforms_kind hconforms hmem
    rw [Body.shows, shownBy, hkind]
    exact (ih label hlabel).of_covers (hshown hinline)
  | terminal hmem =>
    rw [forall_mem_singleton, Body.shows, shownBy, hconforms.terminals _ hmem]
    exact Label.plays_token _
  | literal | pattern => exact forall_mem_singleton.mpr (Label.plays_token _)
  | droppedLiteral | droppedPattern | skipped => nofun
  | nil _ hlabel => cases hlabel
  | seq _ ih | present _ ih => exact ih
  | alt hmem _ ih =>
    exact fun label hlabel => (ih label hlabel).mono fun _ hrole => mem_shows_all.mpr ⟨_, hmem, hrole⟩
  | rep _ _ ih => exact fun label hlabel => (ih label hlabel).mono fun _ => mem_shows_replicate
  | cons _ _ ih ihs label hlabel =>
    rcases mem_append.mp hlabel with hfirst | hrest
    · exact (ih label hfirst).mono fun _ => mem_append_left _
    · exact (ihs label hrest).mono fun _ => mem_append_right _

theorem mem_of_map_step (h : states.mapM (Slot.step shown) = some left) (hmem : slots ∈ states) :
    ∃ next ∈ left, Slot.step shown slots = some next := by
  induction states generalizing left with
  | nil => cases hmem
  | cons state states ih =>
    simp only [mapM_cons, Option.bind_eq_bind, Option.bind_eq_some_iff, Option.pure_def, Option.some.injEq] at h
    obtain ⟨first, hfirst, others, hothers, rfl⟩ := h
    rcases mem_cons.mp hmem with rfl | hmem
    · exact ⟨first, mem_cons_self, hfirst⟩
    · obtain ⟨next, hnext, hstep⟩ := ih hothers hmem
      exact ⟨next, mem_cons_of_mem _ hnext, hstep⟩

theorem after_any_mem (h : Body.afterAny keepTokens bodies states = some left) (hmem : body ∈ bodies) :
    ∃ found, body.after keepTokens states = some found ∧ ∀ state ∈ found, state ∈ left := by
  induction bodies generalizing left with
  | nil => cases hmem
  | cons other bodies ih =>
    simp only [Body.afterAny, Option.bind_eq_bind, Option.bind_eq_some_iff, Option.some.injEq] at h
    obtain ⟨first, hfirst, others, hothers, rfl⟩ := h
    rcases mem_cons.mp hmem with rfl | hmem
    · exact ⟨first, hfirst, fun _ => mem_append_left _⟩
    · obtain ⟨found, hfound, hsub⟩ := ih hothers hmem
      exact ⟨found, hfound, fun state hstate => mem_append_right _ (hsub state hstate)⟩

theorem leads_of_symbol (hconforms : defs.Conforms) {name : String}
    (hfits : Fits defs keepTokens (.symbol name) [label])
    (h : Body.after keepTokens (.symbol name) states = some left) (hslots : slots ∈ states) :
    ∃ next ∈ left, Leads slots [label] next := by
  obtain ⟨next, hnext, hstep⟩ := mem_of_map_step h hslots
  exact ⟨next, hnext, leads_of_step (hfits.plays hconforms label (mem_singleton_self label)) hstep⟩

/-- The labels that a body allows lead to one of the choices that are left after it. Those that copies of the body
allow lead to one of the choices of a set that holds what is left after the body, from the first choices as well as
from the set itself. -/
theorem Fits.leads (hconforms : defs.Conforms) (hfits : Fits defs keepTokens body labels)
    (h : body.after keepTokens states = some left) (hslots : slots ∈ states) : ∃ next ∈ left, Leads slots labels next := by
  induction hfits using Fits.rec (motive_2 := fun keepTokens bodies labels _ =>
      (∀ {states left : List (List Slot)} {slots : List Slot}, Body.afterAll keepTokens bodies states = some left →
        slots ∈ states → ∃ next ∈ left, Leads slots labels next) ∧
      ∀ {body : Body} {states first closed more : List (List Slot)} {slots : List Slot},
        (∀ other ∈ bodies, other = body) →
        body.after keepTokens states = some first → (∀ state ∈ first, state ∈ closed) →
        body.after keepTokens closed = some more → (∀ state ∈ more, state ∈ closed) →
        slots ∈ states → (bodies = [] ∧ labels = []) ∨ ∃ next ∈ closed, Leads slots labels next)
    generalizing states left slots with
  | rule hmem => exact leads_of_symbol hconforms (.rule hmem) h hslots
  | inlined hmem hinline hbody => exact leads_of_symbol hconforms (.inlined hmem hinline hbody) h hslots
  | terminal hmem => exact leads_of_symbol hconforms (.terminal hmem) h hslots
  | literal =>
    obtain ⟨next, hnext, hstep⟩ := mem_of_map_step h hslots
    exact ⟨next, hnext, leads_of_step (Label.plays_token _) hstep⟩
  | droppedLiteral | droppedPattern =>
    cases h
    exact ⟨slots, hslots, .refl slots⟩
  | pattern => cases h
  | seq _ ih => exact ih.1 h hslots
  | alt hmem _ ih =>
    obtain ⟨found, hfound, hsub⟩ := after_any_mem h hmem
    obtain ⟨next, hnext, hleads⟩ := ih hfound hslots
    exact ⟨next, hsub next hnext, hleads⟩
  | skipped =>
    obtain ⟨more, -, ⟨⟩⟩ := Option.bind_eq_some_iff.mp h
    exact ⟨slots, mem_append_left _ hslots, .refl slots⟩
  | present _ ih =>
    obtain ⟨more, hmore, ⟨⟩⟩ := Option.bind_eq_some_iff.mp h
    obtain ⟨next, hnext, hleads⟩ := ih hmore hslots
    exact ⟨next, mem_append_right _ hnext, hleads⟩
  | rep hleast _ ih =>
    rw [Body.after] at h
    split at h
    · obtain ⟨hsub, more, hmore, hclosed⟩ := closure_closed h
      have hloop := ih.2 (fun _ => eq_of_mem_replicate) hmore hclosed hmore hclosed (hsub slots hslots)
      rcases hloop with ⟨-, rfl⟩ | hloop
      · exact ⟨slots, hsub slots hslots, .refl slots⟩
      · exact hloop
    · obtain ⟨first, hfirst, h⟩ := Option.bind_eq_some_iff.mp h
      obtain ⟨hsub, more, hmore, hclosed⟩ := closure_closed h
      have hloop := ih.2 (fun _ => eq_of_mem_replicate) hfirst hsub hmore hclosed hslots
      rcases hloop with ⟨hnone, -⟩ | hloop
      · rw [replicate_eq_nil_iff] at hnone
        omega
      · exact hloop
  | nil =>
    refine ⟨fun h hslots => ?_, fun _ _ _ _ _ _ => .inl ⟨rfl, rfl⟩⟩
    cases h
    exact ⟨_, hslots, .refl _⟩
  | cons _ _ ih ihs =>
    refine ⟨fun h hslots => ?_, fun heq hfirst hsub hmore hclosed hslots => ?_⟩
    · obtain ⟨more, hmore, h⟩ := Option.bind_eq_some_iff.mp h
      obtain ⟨middle, hmiddle, hleads⟩ := ih hmore hslots
      obtain ⟨next, hnext, hrest⟩ := ihs.1 h hmiddle
      exact ⟨next, hnext, hleads.trans hrest⟩
    · obtain ⟨hsame, heq⟩ := forall_mem_cons.mp heq
      obtain ⟨middle, hmiddle, hleads⟩ := ih (hsame ▸ hfirst) hslots
      rcases ihs.2 heq hmore hclosed hmore hclosed (hsub middle hmiddle) with ⟨-, rfl⟩ | ⟨next, hnext, hrest⟩
      · exact .inr ⟨middle, hsub middle hmiddle, by simpa using hleads⟩
      · exact .inr ⟨next, hnext, hleads.trans hrest⟩

theorem accepts_of_fills (hconforms : defs.Conforms) (hfits : Fits defs keepTokens body labels)
    (h : body.fills keepTokens slots = true) : Accepts Label.Plays slots labels := by
  unfold Body.fills at h
  split at h
  · next states hstates =>
    obtain ⟨left, hleft, hleads⟩ := hfits.leads hconforms hstates (mem_singleton_self slots)
    rw [all_eq_true] at h
    simpa using hleads [] (accepts_nil (h left hleft))
  · cases h

theorem fits_alternative (h : Fits defs keepTokens body labels) :
    ∃ alternative ∈ body.alternatives, Fits defs keepTokens alternative labels := by
  cases body with
  | alt bodies =>
    cases h with
    | alt hmem h => exact ⟨_, hmem, h⟩
  | _ => exact ⟨_, mem_singleton_self _, h⟩

theorem fits_accepted (hconforms : defs.Conforms) {definition : Definition} {kind : RuleKind}
    (hmem : definition ∈ defs.rules)
    (hkind : RuleKind.ofName? definition.name = some kind)
    (hfits : Fits defs definition.shaping.keepTokens definition.body labels)
    {signature : Signature} (hsignature : kind.signature? = some signature) :
    ∃ slots ∈ signature.choices, Accepts Label.Plays slots labels := by
  obtain ⟨_, hsame, -, -, hchoices⟩ := conforms_kind hconforms hmem
  cases hsame.symm.trans hkind
  obtain ⟨body, hbody, hfits⟩ := fits_alternative hfits
  obtain ⟨slots, hslots, hfills⟩ := hchoices signature hsignature body hbody
  exact ⟨slots, hslots, accepts_of_fills hconforms hfits hfills⟩

end

end FlightProcedure
