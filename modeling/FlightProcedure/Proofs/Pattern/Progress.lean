import FlightProcedure.Pattern.Notation

/-!
# Where a run of an expression can get

`Regex.Moves` says from which position of a window an expression leads to which, without threads, captures or
preferences. Read it first: `Regex.run_moves` says that a run only passes between such positions. So it never moves
back and never leaves its window, and `Pattern.find?_bounds` carries this over to the matches that are found.
-/

namespace FlightProcedure

variable {pos stop start first second : Nat} {t next : Thread} {w : Window} {reached : Reached}
  {threads : List Thread} {greedy : Bool} {regex : Regex} {step : Nat → Nat → Prop}

namespace Reached

theorem mem_add {other : Thread} (h : other ∈ (reached.add t).threads) : other = t ∨ other ∈ reached.threads := by
  unfold add at h
  split at h
  · exact .inr h
  · split at h
    · simp only [List.mem_singleton] at h
      exact .inl h
    · exact List.mem_cons.mp h

end Reached

/-- A step taken a number of times leads from one position to another. -/
def Iterates (step : Nat → Nat → Prop) : Nat → Nat → Nat → Prop
  | 0, pos, stop => pos = stop
  | count + 1, pos, stop => ∃ next, step pos next ∧ Iterates step count next stop

theorem Iterates.trans {middle : Nat} (hfirst : Iterates step first pos middle)
    (hsecond : Iterates step second middle stop) : Iterates step (first + second) pos stop := by
  induction first generalizing pos with
  | zero =>
    cases hfirst
    rwa [Nat.zero_add]
  | succ first ih =>
    obtain ⟨next, hnext, hrest⟩ := hfirst
    rw [Nat.add_right_comm]
    exact ⟨next, hnext, ih hrest⟩

theorem Iterates.one (h : step pos stop) : Iterates step 1 pos stop := ⟨stop, h, rfl⟩

theorem Iterates.split (h : Iterates step (first + second) pos stop) :
    ∃ middle, Iterates step first pos middle ∧ Iterates step second middle stop := by
  induction first generalizing pos with
  | zero => exact ⟨pos, rfl, by rwa [Nat.zero_add] at h⟩
  | succ first ih =>
    rw [Nat.add_right_comm] at h
    obtain ⟨next, hnext, hrest⟩ := h
    obtain ⟨middle, hfirst, hsecond⟩ := ih hrest
    exact ⟨middle, ⟨next, hnext, hfirst⟩, hsecond⟩

namespace Thread

theorem mem_of_distinct (h : t ∈ distinct threads) : t ∈ threads := by
  have hfold : ∀ (threads : List Thread) (reached : Reached),
      t ∈ (threads.foldl Reached.add reached).threads → t ∈ reached.threads ∨ t ∈ threads := by
    intro threads
    induction threads with
    | nil => exact fun _ h => .inl h
    | cons first rest ih =>
      intro reached h
      rcases ih _ h with h | h
      · rcases Reached.mem_add h with rfl | h
        · exact .inr List.mem_cons_self
        · exact .inl h
      · exact .inr (List.mem_cons_of_mem _ h)
  rcases hfold threads .none (List.mem_reverse.mp h) with h | h
  · cases h
  · exact h

theorem mem_of_follow {step : Thread → List Thread} (h : next ∈ follow threads step) :
    ∃ t ∈ threads, next ∈ step t := by
  unfold follow at h
  split at h
  · exact ⟨_, List.mem_singleton_self _, h⟩
  · exact List.mem_flatMap.mp (mem_of_distinct h)

def Obeys (moves : Nat → Nat → Prop) (step : Thread → List Thread) : Prop := ∀ t, ∀ next ∈ step t, moves t.pos next.pos

def Forward (stop : Nat) (step : Thread → List Thread) : Prop :=
  ∀ t, t.pos ≤ stop → ∀ next ∈ step t, t.pos ≤ next.pos ∧ next.pos ≤ stop

section

variable {moves : Nat → Nat → Prop} {step : Thread → List Thread}

theorem Obeys.times (hstep : Obeys moves step) (count : Nat) (h : next ∈ times step count threads) :
    ∃ t ∈ threads, Iterates moves count t.pos next.pos := by
  induction count generalizing threads with
  | zero => exact ⟨next, h, rfl⟩
  | succ count ih =>
    unfold Thread.times at h
    split at h
    · cases h
    · obtain ⟨middle, hmiddle, hrest⟩ := ih h
      obtain ⟨t, ht, hnext⟩ := mem_of_follow hmiddle
      exact ⟨t, ht, middle.pos, hstep t middle hnext, hrest⟩

theorem Obeys.up_to (hstep : Obeys moves step) (count : Nat) (h : next ∈ upTo step greedy count t) :
    ∃ times ≤ count, Iterates moves times t.pos next.pos := by
  induction count generalizing t with
  | zero =>
    cases List.mem_singleton.mp h
    exact ⟨0, Nat.le_refl 0, rfl⟩
  | succ count ih =>
    have hmem : next ∈ (step t).flatMap (upTo step greedy count) ∨ next = t := by
      have hmem := mem_of_distinct h
      split at hmem
      · simpa using hmem
      · rw [List.mem_cons, or_comm] at hmem
        exact hmem
    rcases hmem with hmem | rfl
    · obtain ⟨middle, hmiddle, hnext⟩ := List.mem_flatMap.mp hmem
      obtain ⟨times, hle, htimes⟩ := ih hnext
      exact ⟨times + 1, Nat.succ_le_succ hle, middle.pos, hstep t middle hmiddle, htimes⟩
    · exact ⟨0, Nat.zero_le _, rfl⟩

def Gathers (moves : Nat → Nat → Prop) (pos : Nat) (reached : Reached) : Prop :=
  ∀ t ∈ reached.threads, ∃ times, 1 ≤ times ∧ Iterates moves times pos t.pos

theorem Gathers.add (h : Gathers moves pos reached) (ht : ∃ times, 1 ≤ times ∧ Iterates moves times pos t.pos) :
    Gathers moves pos (reached.add t) := by
  intro other hother
  rcases Reached.mem_add hother with rfl | hother
  · exact ht
  · exact h other hother

theorem Obeys.again (hstep : Obeys moves step) (fuel : Nat) (ht : ∃ times, Iterates moves times pos t.pos)
    (h : Gathers moves pos reached) : Gathers moves pos (again step greedy fuel t reached) := by
  induction fuel generalizing t reached with
  | zero => exact h
  | succ fuel ih =>
    unfold Thread.again
    have hnext := hstep t
    generalize step t = threads at hnext
    induction threads generalizing reached with
    | nil => exact h
    | cons next rest ihrest =>
      obtain ⟨times, htimes⟩ := ht
      have hmoved := htimes.trans (.one (hnext next List.mem_cons_self))
      have honce : ∃ times, 1 ≤ times ∧ Iterates moves times pos next.pos := ⟨times + 1, by omega, hmoved⟩
      rw [List.foldl_cons]
      apply ihrest _ fun other hother => hnext other (List.mem_cons_of_mem _ hother)
      split
      · exact h
      · split
        · exact (ih ⟨_, hmoved⟩ h).add honce
        · exact ih ⟨_, hmoved⟩ (h.add honce)

theorem Obeys.one_or_more (hstep : Obeys moves step) (greedy : Bool) (fuel : Nat) (t : Thread) :
    Gathers moves t.pos (oneOrMore step greedy fuel t) := by
  unfold Thread.oneOrMore
  have hnext := hstep t
  have hnone : Gathers moves t.pos Reached.none := by simp [Gathers, Reached.none]
  generalize step t = threads at hnext
  generalize Reached.none = reached at hnone
  induction threads generalizing reached with
  | nil => exact hnone
  | cons next rest ih =>
    have hmoved := Iterates.one (hnext next List.mem_cons_self)
    have honce : ∃ times, 1 ≤ times ∧ Iterates moves times t.pos next.pos := ⟨1, Nat.le_refl 1, hmoved⟩
    rw [List.foldl_cons]
    apply ih fun other hother => hnext other (List.mem_cons_of_mem _ hother)
    split
    · exact hnone
    · split
      · exact hnone.add honce
      · split
        · exact (hstep.again fuel ⟨1, hmoved⟩ hnone).add honce
        · exact hstep.again fuel ⟨1, hmoved⟩ (hnone.add honce)

theorem Obeys.repeated (hstep : Obeys moves step) {least : Nat} {most : Option Nat}
    (h : next ∈ repeated step stop least most greedy t) :
    ∃ times, least ≤ times ∧ (∀ bound ∈ most, times ≤ max least bound) ∧ Iterates moves times t.pos next.pos := by
  unfold Thread.repeated at h
  split at h
  · obtain ⟨middle, hmiddle, hnext⟩ := mem_of_follow h
    obtain ⟨first, hfirst, htimes⟩ := hstep.times _ hmiddle
    cases List.mem_singleton.mp hfirst
    obtain ⟨more, hle, hmore⟩ := hstep.up_to _ hnext
    refine ⟨_, Nat.le_add_right _ more, fun bound hbound => ?_, htimes.trans hmore⟩
    cases hbound
    omega
  · have hmem := mem_of_distinct h
    have hcases : next = t ∨ next ∈ (oneOrMore step greedy (stop + 1 - t.pos) t).toList := by
      split at hmem
      · rw [List.mem_append, List.mem_singleton, or_comm] at hmem
        exact hmem
      · exact List.mem_cons.mp hmem
    rcases hcases with rfl | hloop
    · exact ⟨0, Nat.le_refl 0, nofun, rfl⟩
    · obtain ⟨times, _, htimes⟩ := hstep.one_or_more _ _ t next (List.mem_reverse.mp hloop)
      exact ⟨times, Nat.zero_le _, nofun, htimes⟩
  · obtain ⟨middle, hmiddle, hnext⟩ := mem_of_follow h
    obtain ⟨first, hfirst, htimes⟩ := hstep.times _ hmiddle
    cases List.mem_singleton.mp hfirst
    obtain ⟨more, hle, hmore⟩ := hstep.one_or_more _ _ middle next (List.mem_reverse.mp hnext)
    exact ⟨_, by omega, nofun, htimes.trans hmore⟩

end

end Thread

/-- `regex.Moves w pos stop` says that the expression can pass from one position of the window to another. -/
def Regex.Moves (w : Window) : Regex → Nat → Nat → Prop
  | .empty, pos, stop => pos = stop
  | .oneOf set, pos, stop => (∃ c, w.next? pos = some c ∧ set.mem c = true) ∧ stop = pos + 1
  | .anchor condition, pos, stop => condition.holds w pos = true ∧ pos = stop
  | .seq first second, pos, stop => ∃ middle, first.Moves w pos middle ∧ second.Moves w middle stop
  | .alt first second, pos, stop => first.Moves w pos stop ∨ second.Moves w pos stop
  | .rep body least most _, pos, stop =>
    ∃ times, least ≤ times ∧ (∀ bound ∈ most, times ≤ max least bound) ∧ Iterates (body.Moves w) times pos stop
  | .group _ body, pos, stop => body.Moves w pos stop

theorem Regex.run_moves (w : Window) (regex : Regex) : Thread.Obeys (regex.Moves w) (regex.run w) := by
  induction regex with
  | empty =>
    intro t next h
    cases List.mem_singleton.mp h
    exact rfl
  | oneOf set =>
    intro t next h
    simp only [run] at h
    split at h
    · next c hc =>
      split at h
      · next hmem =>
        cases List.mem_singleton.mp h
        exact ⟨⟨c, hc, hmem⟩, rfl⟩
      · cases h
    · cases h
  | anchor condition =>
    intro t next h
    simp only [run] at h
    split at h
    · next hholds =>
      cases List.mem_singleton.mp h
      exact ⟨hholds, rfl⟩
    · cases h
  | seq first second ihfirst ihsecond =>
    intro t next h
    obtain ⟨middle, hmiddle, hnext⟩ := Thread.mem_of_follow h
    exact ⟨middle.pos, ihfirst t middle hmiddle, ihsecond middle next hnext⟩
  | alt first second ihfirst ihsecond =>
    intro t next h
    exact (List.mem_append.mp (Thread.mem_of_distinct h)).imp (ihfirst t next) (ihsecond t next)
  | rep body least most greedy ih => exact fun t next h => ih.repeated h
  | group number body ih =>
    intro t next h
    obtain ⟨inner, hinner, rfl⟩ := List.mem_map.mp h
    exact ih t inner hinner

namespace Regex

theorem Moves.forward (h : regex.Moves w pos stop) : pos ≤ stop ∧ (pos ≤ w.stop → stop ≤ w.stop) := by
  induction regex generalizing pos stop with
  | empty =>
    cases h
    exact ⟨Nat.le_refl _, id⟩
  | oneOf set =>
    obtain ⟨⟨c, hc, -⟩, rfl⟩ := h
    rw [Window.next?] at hc
    split at hc
    · omega
    · cases hc
  | anchor condition =>
    cases h.2
    exact ⟨Nat.le_refl _, id⟩
  | seq first second ihfirst ihsecond =>
    obtain ⟨middle, hfirst, hsecond⟩ := h
    have hbefore := ihfirst hfirst
    have hafter := ihsecond hsecond
    omega
  | alt first second ihfirst ihsecond => exact h.elim ihfirst ihsecond
  | rep body least most greedy ih =>
    obtain ⟨times, -, -, h⟩ := h
    induction times generalizing pos with
    | zero =>
      cases h
      exact ⟨Nat.le_refl _, id⟩
    | succ times ihtimes =>
      obtain ⟨next, hnext, hrest⟩ := h
      have hbefore := ih hnext
      have hafter := ihtimes hrest
      omega
  | group number body ih => exact ih h

theorem run_forward (w : Window) (regex : Regex) : Thread.Forward w.stop (regex.run w) := by
  intro t ht next hnext
  have hforward := (regex.run_moves w t next hnext).forward
  exact ⟨hforward.1, hforward.2 ht⟩

theorem search_bounds {fuel : Nat} (hfuel : pos + fuel ≤ w.stop) (h : regex.search w fuel pos = some (start, t)) :
    pos ≤ t.pos ∧ t.pos ≤ w.stop := by
  induction fuel generalizing pos with
  | zero =>
    unfold search at h
    split at h
    · next first rest hrun =>
      cases h
      exact regex.run_forward w ⟨start, []⟩ hfuel t (by simp [hrun])
    · simp at h
  | succ fuel ih =>
    unfold search at h
    split at h
    · next first rest hrun =>
      cases h
      exact regex.run_forward w ⟨start, []⟩ (by simp only; omega) t (by simp [hrun])
    · have := ih (by omega) h
      omega

theorem find?_bounds (h : regex.find? w w.start = some (start, t)) : w.start ≤ t.pos ∧ t.pos ≤ w.stop := by
  unfold find? at h
  split at h
  · simp at h
  · next hstop =>
    split at h
    · split at h
      · exact search_bounds (by omega) h
      · simp at h
    · exact search_bounds (by omega) h

end Regex

theorem Pattern.find?_bounds {pattern : Pattern} (h : pattern.find? w w.start = some (start, t)) :
    w.start ≤ t.pos ∧ t.pos ≤ w.stop :=
  Regex.find?_bounds h

end FlightProcedure
