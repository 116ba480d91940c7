import FlightProcedure.Proofs.Pattern.Progress

/-!
# What a run of an expression reaches

A run does not miss a position that an expression leads to: of two threads at one position only the first is
followed, but what it leads to is what the other one would lead to. Read `Thread.Covers` first: `Regex.reaches_run`
says that a run reaches just the positions of `Regex.Moves`.
-/

namespace FlightProcedure

open List Reached Thread

theorem Reached.has_iff (reached : Reached) (pos : Nat) :
    reached.has pos = true ↔ ∃ t ∈ reached.threads, t.pos = pos := by
  rw [reached.has_eq_any]
  simp

theorem Reached.has_add (reached : Reached) (t : Thread) (pos : Nat) :
    (reached.add t).has pos = true ↔ reached.has pos = true ∨ pos = t.pos := by
  unfold add
  split
  · next hthere => exact ⟨.inl, fun h => h.elim id fun heq => heq ▸ hthere⟩
  · split
    · next hnone =>
      simp only [has_iff, hnone, mem_singleton, exists_eq_left, not_mem_nil, false_and, exists_false, false_or]
      exact eq_comm
    · simp only [has_iff, mem_cons, exists_eq_or_imp]
      rw [or_comm, eq_comm (a := t.pos)]

variable {pos count fuel : Nat} {t : Thread} {greedy : Bool} {threads : List Thread}

namespace Thread

def Reaches (threads : List Thread) (pos : Nat) : Prop := ∃ t ∈ threads, t.pos = pos

theorem reaches_distinct : Reaches (distinct threads) pos ↔ Reaches threads pos := by
  have hfold : ∀ (threads : List Thread) (reached : Reached),
      (threads.foldl add reached).has pos = true ↔ reached.has pos = true ∨ Reaches threads pos := by
    intro threads
    induction threads with
    | nil => simp [Reaches]
    | cons t threads ih =>
      intro reached
      rw [foldl_cons, ih, has_add, or_assoc, eq_comm (a := pos)]
      simp [Reaches]
  have hnone : Reached.none.has pos ≠ true := by simp [Reached.has_iff, Reached.none]
  have hall := hfold threads .none
  rw [has_iff, or_iff_right hnone] at hall
  rw [← hall]
  simp [Reaches, distinct, toList]

/-- A step leads to all positions that a relation leads to, and goes forward. -/
structure Covers (stop : Nat) (moves : Nat → Nat → Prop) (step : Thread → List Thread) : Prop where
  forward : ∀ {pos next}, moves pos next → pos ≤ stop → pos ≤ next ∧ next ≤ stop
  reaches : ∀ {t : Thread}, t.pos ≤ stop → ∀ {next}, moves t.pos next → Reaches (step t) next
  bounded : Forward stop step

section

variable {stop : Nat} {moves : Nat → Nat → Prop} {step : Thread → List Thread}

theorem Covers.iterates (h : Covers stop moves step) {times next : Nat} (hmoves : Iterates moves times pos next)
    (hpos : pos ≤ stop) : pos ≤ next ∧ next ≤ stop := by
  induction times generalizing pos with
  | zero =>
    cases hmoves
    exact ⟨Nat.le_refl _, hpos⟩
  | succ times ih =>
    obtain ⟨middle, hfirst, hrest⟩ := hmoves
    obtain ⟨hle, hmiddle⟩ := h.forward hfirst hpos
    have hnext := ih hrest hmiddle
    omega

theorem reaches_follow (ht : t ∈ threads) {next : Nat} (hnext : Reaches (step t) next) :
    Reaches (follow threads step) next := by
  unfold follow
  split
  · cases mem_singleton.mp ht
    exact hnext
  · obtain ⟨other, hother, rfl⟩ := hnext
    exact reaches_distinct.mpr ⟨other, mem_flatMap.mpr ⟨t, ht, hother⟩, rfl⟩

theorem Covers.times (h : Covers stop moves step) (ht : t ∈ threads) (hstop : t.pos ≤ stop) {next : Nat}
    (hmoves : Iterates moves count t.pos next) : Reaches (times step count threads) next := by
  induction count generalizing threads t with
  | zero => exact ⟨t, ht, hmoves⟩
  | succ count ih =>
    obtain ⟨middle, hfirst, hrest⟩ := hmoves
    obtain ⟨other, hother, rfl⟩ := reaches_follow ht (h.reaches hstop hfirst)
    have hsome : threads.isEmpty = false := by
      cases threads with
      | nil => cases ht
      | cons => rfl
    rw [times, hsome, if_neg Bool.false_ne_true]
    exact ih hother (h.forward hfirst hstop).2 hrest

theorem Covers.up_to (h : Covers stop moves step) {times : Nat} (hle : times ≤ count) (hstop : t.pos ≤ stop)
    {next : Nat} (hmoves : Iterates moves times t.pos next) : Reaches (upTo step greedy count t) next := by
  induction times generalizing count t with
  | zero =>
    cases hmoves
    cases count with
    | zero => exact ⟨t, mem_singleton_self t, rfl⟩
    | succ count =>
      refine reaches_distinct.mpr ⟨t, ?_, rfl⟩
      cases greedy <;> simp
  | succ times ih =>
    obtain ⟨count, rfl⟩ : ∃ less, count = less + 1 := ⟨count - 1, by omega⟩
    obtain ⟨middle, hfirst, hrest⟩ := hmoves
    obtain ⟨other, hother, rfl⟩ := h.reaches hstop hfirst
    obtain ⟨last, hlast, hpos⟩ := ih (Nat.le_of_succ_le_succ hle) (h.forward hfirst hstop).2 hrest
    have hfurther : last ∈ (step t).flatMap (upTo step greedy count) := mem_flatMap.mpr ⟨other, hother, hlast⟩
    refine reaches_distinct.mpr ⟨last, ?_, hpos⟩
    cases greedy <;> simp only [Bool.false_eq_true, if_false, if_true]
    · exact mem_cons_of_mem _ hfurther
    · exact mem_append_left _ hfurther

/-- What a search has reached is closed under moves behind a position: no move from there leads out. -/
def Closed (moves : Nat → Nat → Prop) (pos : Nat) (reached : Reached) : Prop :=
  ∀ other next, reached.has other = true → pos < other → moves other next → reached.has next = true

/-- What one more search from `t` keeps: it finds all moves from `t` that advance, closes what is behind `t`, and
adds nothing before that. -/
structure Extends (moves : Nat → Nat → Prop) (pos : Nat) (before after : Reached) : Prop where
  keeps : ∀ other, before.has other = true → after.has other = true
  behind : ∀ other, after.has other = true → before.has other = true ∨ pos < other
  closed : Closed moves pos after

theorem Extends.next {before : Reached} (hclosed : Closed moves pos before) {next : Thread}
    (hnew : pos < next.pos) {search : Reached → Reached}
    (hsearch : ∀ reached, Closed moves next.pos reached → Extends moves next.pos reached (search reached) ∧
        ∀ other, moves next.pos other → next.pos < other → (search reached).has other = true)
    (hforward : ∀ other, moves next.pos other → next.pos ≤ other) :
    Extends moves pos before (if greedy then (search before).add next else search (before.add next)) ∧
      (if greedy then (search before).add next else search (before.add next)).has next.pos = true := by
  generalize hafter : (if greedy then (search before).add next else search (before.add next)) = after
  -- In both orders the search starts from what was there, perhaps with the thread, and the thread is there in the end.
  obtain ⟨middle, hkeeps, hmiddle, hhas⟩ : ∃ middle : Reached,
      (∀ other, before.has other = true → middle.has other = true) ∧
      (∀ other, middle.has other = true → before.has other = true ∨ other = next.pos) ∧
      ∀ other, after.has other = true ↔ (search middle).has other = true ∨ other = next.pos := by
    subst hafter
    cases greedy with
    | true => exact ⟨before, fun _ => id, fun _ => .inl, has_add _ _⟩
    | false =>
      have hlater : Closed moves next.pos (before.add next) := fun other last hother hlt hmove => by
        rw [has_add] at hother ⊢
        rcases hother with hother | rfl
        · exact .inl (hclosed other last hother (by omega) hmove)
        · omega
      have hthere := (hsearch _ hlater).1.keeps next.pos ((has_add ..).mpr (.inr rfl))
      exact ⟨before.add next, fun _ h => (has_add ..).mpr (.inl h), fun _ => (has_add ..).mp,
        fun _ => (or_iff_left_of_imp fun heq => heq ▸ hthere).symm⟩
  obtain ⟨hextends, hmoves⟩ := hsearch middle fun other last hother hlt hmove =>
    hkeeps last <| hclosed other last ((hmiddle other hother).resolve_right (by omega)) (by omega) hmove
  refine ⟨⟨fun other h => (hhas other).mpr (.inl (hextends.keeps other (hkeeps other h))), fun other h => ?_,
    fun other last hother hlt hmove => (hhas last).mpr ?_⟩, (hhas _).mpr (.inr rfl)⟩
  · rcases (hhas other).mp h with h | rfl
    · rcases hextends.behind other h with h | h
      · exact (hmiddle other h).imp_right fun heq => by omega
      · exact .inr (by omega)
    · exact .inr hnew
  · have hself : moves next.pos last → (search middle).has last = true ∨ last = next.pos := fun hmove =>
      (Nat.lt_or_eq_of_le (hforward last hmove)).imp (hmoves last hmove) Eq.symm
    rcases (hhas other).mp hother with hother | rfl
    · rcases hextends.behind other hother with hthere | hbehind
      · rcases hmiddle other hthere with hbefore | rfl
        · exact .inl (hextends.keeps last (hkeeps last (hclosed other last hbefore hlt hmove)))
        · exact hself hmove
      · exact .inl (hextends.closed other last hother hbehind hmove)
    · exact hself hmove

theorem Extends.refl {reached : Reached} (h : Closed moves pos reached) : Extends moves pos reached reached :=
  ⟨fun _ => id, fun _ => .inl, h⟩

theorem Extends.trans {first second third : Reached} (h : Extends moves pos first second)
    (hnext : Extends moves pos second third) : Extends moves pos first third :=
  ⟨fun other hother => hnext.keeps other (h.keeps other hother),
    fun other hother => (hnext.behind other hother).elim (h.behind other) .inr, hnext.closed⟩

variable (h : Covers stop moves step) (hstop : t.pos ≤ stop)

include h hstop

theorem Covers.again (hfuel : stop < t.pos + fuel) {reached : Reached} (hclosed : Closed moves t.pos reached) :
    Extends moves t.pos reached (again step greedy fuel t reached) ∧
      ∀ other, moves t.pos other → t.pos < other → (again step greedy fuel t reached).has other = true := by
  induction fuel generalizing t reached with
  | zero => omega
  | succ fuel ih =>
    unfold again
    have hall : ∀ other, moves t.pos other → t.pos < other → Reaches (step t) other ∨ reached.has other = true :=
      fun other hmove _ => .inl (h.reaches hstop hmove)
    have hbounded := h.bounded t hstop
    generalize step t = threads at hall hbounded
    induction threads generalizing reached with
    | nil => exact ⟨.refl hclosed, fun other hmove hlt => (hall other hmove hlt).resolve_left (by simp [Reaches])⟩
    | cons next rest ihrest =>
      rw [foldl_cons]
      generalize hround : (if (decide (next.pos ≤ t.pos) || reached.has next.pos) = true then reached
        else if greedy = true then (again step greedy fuel next reached).add next
        else again step greedy fuel next (reached.add next)) = round
      obtain ⟨hextends, hnext⟩ : Extends moves t.pos reached round ∧ (t.pos < next.pos → round.has next.pos = true) := by
        subst hround
        split
        · next hskip =>
          rw [Bool.or_eq_true, decide_eq_true_eq] at hskip
          exact ⟨.refl hclosed, fun hlt => hskip.resolve_left (by omega)⟩
        · next hskip =>
          rw [Bool.or_eq_true, decide_eq_true_eq, not_or, Nat.not_le] at hskip
          have hle := (hbounded next mem_cons_self).2
          obtain ⟨hextends, hthere⟩ := Extends.next hclosed hskip.1
            (fun reached hlater => ih hle (by omega) hlater) fun other hmove => (h.forward hmove hle).1
          exact ⟨hextends, fun _ => hthere⟩
      obtain ⟨hrest, hmoves⟩ := ihrest hextends.closed (fun other hmove hlt => by
        rcases hall other hmove hlt with ⟨thread, hthread, rfl⟩ | hthere
        · rcases mem_cons.mp hthread with rfl | hthread
          · exact .inr (hnext hlt)
          · exact .inl ⟨thread, hthread, rfl⟩
        · exact .inr (hextends.keeps other hthere)) fun thread hthread => hbounded thread (mem_cons_of_mem _ hthread)
      exact ⟨hextends.trans hrest, hmoves⟩

theorem Covers.one_or_more (hfuel : stop < t.pos + fuel)
    {times next : Nat} (hmoves : Iterates moves (times + 1) t.pos next) :
    (oneOrMore step greedy fuel t).has next = true := by
  obtain ⟨hclosed, hall⟩ : Closed moves t.pos (oneOrMore step greedy fuel t) ∧
      ∀ other, moves t.pos other → (oneOrMore step greedy fuel t).has other = true := by
    unfold Thread.oneOrMore
    have hall : ∀ other, moves t.pos other → Reaches (step t) other ∨ Reached.none.has other = true :=
      fun other hmove => .inl (h.reaches hstop hmove)
    have hnone : Closed moves t.pos Reached.none := fun other _ hother => by simp [Reached.has_iff, Reached.none] at hother
    have hbounded := h.bounded t hstop
    generalize step t = threads at hall hbounded
    generalize Reached.none = reached at hall hnone
    induction threads generalizing reached with
    | nil => exact ⟨hnone, fun other hmove => (hall other hmove).resolve_left (by simp [Reaches])⟩
    | cons next rest ih =>
      rw [foldl_cons]
      generalize hround : (if reached.has next.pos = true then reached
        else if next.pos ≤ t.pos then reached.add next
        else if greedy = true then (Thread.again step greedy fuel next reached).add next
        else Thread.again step greedy fuel next (reached.add next)) = round
      obtain ⟨hkeeps, hclosed, hnext⟩ : (∀ other, reached.has other = true → round.has other = true) ∧
          Closed moves t.pos round ∧ round.has next.pos = true := by
        subst hround
        split
        · next hthere => exact ⟨fun _ => id, hnone, hthere⟩
        · split
          · next hstays =>
            refine ⟨fun other hother => (Reached.has_add ..).mpr (.inl hother), fun other last hother hlt hmove => ?_,
              (Reached.has_add ..).mpr (.inr rfl)⟩
            rcases (Reached.has_add ..).mp hother with hother | rfl
            · exact (Reached.has_add ..).mpr (.inl (hnone other last hother hlt hmove))
            · omega
          · next hmoves =>
            have hle := (hbounded next mem_cons_self).2
            have hsearch : ∀ reached, Closed moves next.pos reached →
                Extends moves next.pos reached (Thread.again step greedy fuel next reached) ∧ ∀ other,
                  moves next.pos other → next.pos < other → (Thread.again step greedy fuel next reached).has other = true :=
              fun reached hlater => h.again hle (by omega) hlater
            obtain ⟨hextends, hthere⟩ := Extends.next hnone (Nat.lt_of_not_le hmoves) hsearch
              fun other hmove => (h.forward hmove hle).1
            exact ⟨hextends.keeps, hextends.closed, hthere⟩
      refine ih (fun other hother => hbounded other (mem_cons_of_mem _ hother)) _ (fun other hmove => ?_) hclosed
      rcases hall other hmove with ⟨thread, hthread, rfl⟩ | hthere
      · rcases mem_cons.mp hthread with rfl | hthread
        · exact .inr hnext
        · exact .inl ⟨thread, hthread, rfl⟩
      · exact .inr (hkeeps other hthere)
  -- A move that stays at the start leads to where the first moves lead.
  induction times generalizing next with
  | zero =>
    obtain ⟨middle, hfirst, rfl⟩ := hmoves
    exact hall _ hfirst
  | succ times ih =>
    obtain ⟨middle, hmiddle, last, hlast, rfl⟩ := Iterates.split hmoves
    rcases Nat.lt_or_eq_of_le (h.iterates hmiddle hstop).1 with hlt | rfl
    · exact hclosed _ _ (ih hmiddle) hlt hlast
    · exact hall _ hlast

theorem Covers.repeated {least : Nat} {most : Option Nat}
    {times next : Nat} (hleast : least ≤ times) (hmost : ∀ bound ∈ most, times ≤ max least bound)
    (hmoves : Iterates moves times t.pos next) : Reaches (repeated step stop least most greedy t) next := by
  have hloop : ∀ {t : Thread}, t.pos ≤ stop → ∀ {more next : Nat}, Iterates moves (more + 1) t.pos next →
      Reaches (oneOrMore step greedy (stop + 1 - t.pos) t).toList next := fun {t} hstop more next hmoves => by
    have hfuel : stop < t.pos + (stop + 1 - t.pos) := by omega
    obtain ⟨other, hother, hpos⟩ := (has_iff ..).mp (h.one_or_more hstop hfuel hmoves)
    exact ⟨other, mem_reverse.mpr hother, hpos⟩
  unfold Thread.repeated
  split
  · next least bound =>
    obtain ⟨more, rfl⟩ := Nat.exists_eq_add_of_le hleast
    obtain ⟨middle, hfirst, hrest⟩ := hmoves.split
    obtain ⟨other, hother, rfl⟩ := h.times (mem_singleton_self t) hstop hfirst
    have hbound := hmost bound rfl
    exact reaches_follow hother (h.up_to (by omega) (h.iterates hfirst hstop).2 hrest)
  · refine reaches_distinct.mpr ?_
    have hcases : next = t.pos ∨ Reaches (oneOrMore step greedy (stop + 1 - t.pos) t).toList next := by
      cases times with
      | zero => exact .inl hmoves.symm
      | succ times => exact .inr (hloop hstop hmoves)
    rcases hcases with rfl | ⟨other, hother, hpos⟩
    · exact ⟨t, by split <;> simp, rfl⟩
    · exact ⟨other, by split <;> simp [hother], hpos⟩
  · next least =>
    obtain ⟨more, rfl⟩ := Nat.exists_eq_add_of_le hleast
    rw [show least.succ + more = least + (more + 1) by omega] at hmoves
    obtain ⟨middle, hfirst, hrest⟩ := hmoves.split
    obtain ⟨other, hother, rfl⟩ := h.times (mem_singleton_self t) hstop hfirst
    exact reaches_follow hother (hloop (h.iterates hfirst hstop).2 hrest)

end

end Thread

theorem Regex.run_covers (w : Window) (regex : Regex) : Covers w.stop (regex.Moves w) (regex.run w) := by
  suffices hreaches : ∀ {t : Thread}, t.pos ≤ w.stop → ∀ {next}, regex.Moves w t.pos next →
      Reaches (regex.run w t) next from
    ⟨fun {pos next} hmove hpos => by
      obtain ⟨other, hother, rfl⟩ := hreaches (t := ⟨pos, []⟩) hpos hmove
      exact regex.run_forward w ⟨pos, []⟩ hpos other hother, hreaches, regex.run_forward w⟩
  induction regex with
  | empty =>
    rintro t - next rfl
    exact ⟨t, mem_singleton_self t, rfl⟩
  | oneOf set =>
    rintro t - next ⟨⟨c, hc, hmem⟩, rfl⟩
    exact ⟨t.advance, by simp [run, hc, hmem], rfl⟩
  | anchor condition =>
    rintro t - next ⟨hholds, rfl⟩
    exact ⟨t, by simp [run, hholds], rfl⟩
  | seq first second ihfirst ihsecond =>
    rintro t hstop next ⟨middle, hfirst, hsecond⟩
    obtain ⟨other, hother, rfl⟩ := ihfirst hstop hfirst
    exact reaches_follow hother (ihsecond (first.run_forward w t hstop other hother).2 hsecond)
  | alt first second ihfirst ihsecond =>
    rintro t hstop next (h | h)
    · obtain ⟨other, hother, hpos⟩ := ihfirst hstop h
      exact reaches_distinct.mpr ⟨other, mem_append_left _ hother, hpos⟩
    · obtain ⟨other, hother, hpos⟩ := ihsecond hstop h
      exact reaches_distinct.mpr ⟨other, mem_append_right _ hother, hpos⟩
  | rep body least most greedy ih =>
    rintro t hstop next ⟨times, hleast, hmost, hmoves⟩
    have hcovers : Covers w.stop (body.Moves w) (body.run w) :=
      ⟨fun {pos next} hmove hpos => by
        obtain ⟨other, hother, rfl⟩ := ih (t := ⟨pos, []⟩) hpos hmove
        exact body.run_forward w ⟨pos, []⟩ hpos other hother, ih, body.run_forward w⟩
    exact hcovers.repeated hstop hleast hmost hmoves
  | group number body ih =>
    intro t hstop next h
    obtain ⟨other, hother, rfl⟩ := ih hstop h
    exact ⟨_, mem_map.mpr ⟨other, hother, rfl⟩, rfl⟩

theorem Regex.reaches_run {w : Window} {regex : Regex} (hstop : t.pos ≤ w.stop) {next : Nat} :
    Reaches (regex.run w t) next ↔ regex.Moves w t.pos next := by
  refine ⟨?_, (regex.run_covers w).reaches hstop⟩
  rintro ⟨other, hother, rfl⟩
  exact regex.run_moves w t other hother

end FlightProcedure
