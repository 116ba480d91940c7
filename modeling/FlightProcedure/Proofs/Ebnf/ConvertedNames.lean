import FlightProcedure.Proofs.Ebnf.HeadNames

/-!
# The names of a converted text

Names are replaced in the names of other rules too, since a word is replaced wherever it stands. They are
replaced from the longest to the shortest. A name therefore keeps its words until its own turn comes, and it is
one folded word from then on (`renamed_all_renamings`). After a conversion it is the folded name, or that of a
terminal in capital letters (`renamed_all_converted`).
-/

namespace FlightProcedure.Ebnf

open Segment Conversion List

variable {c : Char} {without text word new : List Char} {before : Option Char} {name old : String}
  {names terminals : List String} {folded entries : FoldedNames} {out : List Char}

/-! ## Replacing a name in a name -/

theorem replace_word_self (hname : IsName word) : replaceWordFrom word new 0 none word = new := by
  obtain ⟨c, rest, rfl, hc⟩ := hname.exists_cons
  obtain ⟨front, last, hlast, hword⟩ := hname.exists_concat
  have hfirst : isWordChar c = true := (class_of_ascii_word (word_of_letter hc)).1
  have hends : (c :: rest).getLast?.any isWordChar = true := by
    rw [hlast, getLast?_concat]
    exact (class_of_ascii_word hword).1
  have hstarts : startsWithWord (c :: rest) none (c :: rest) = true := by
    simp [startsWithWord, isWordEdge, hfirst, hends]
  rw [replaceWordFrom, if_pos hstarts, replace_word_skipped (by simp), append_nil]

theorem replace_word_longer (hlong : text.length ≤ word.length) (hne : text ≠ word) :
    replaceWordFrom word new 0 before text = text := by
  induction text generalizing before with
  | nil => rfl
  | cons c rest ih =>
    have hnone : startsWithWord word before (c :: rest) = false := by
      rw [Bool.eq_false_iff]
      intro hstarts
      simp only [startsWithWord, Bool.and_eq_true, isPrefixOf_iff_prefix] at hstarts
      exact hne (hstarts.1.1.eq_of_length_le hlong).symm
    have hshort : rest.length < word.length := hlong
    have hother : rest ≠ word := by
      rintro rfl
      exact Nat.lt_irrefl _ hshort
    rw [replaceWordFrom, if_neg (by simp [hnone]), ih (Nat.le_of_lt hshort) hother]

theorem replace_word_one (hname : IsName word) (hchars : ∀ c ∈ text, isWordChar c = true) :
    replaceWordFrom word new 0 none text = if text = word then new else text := by
  split
  · next heq =>
    rw [heq]
    exact replace_word_self hname
  · next hne =>
    cases text with
    | nil => rfl
    | cons c rest =>
      obtain ⟨front, last, hlast, hword⟩ := hname.exists_concat
      have hnone : startsWithWord word none (c :: rest) = false := by
        rw [Bool.eq_false_iff]
        intro hstarts
        simp only [startsWithWord, Bool.and_eq_true, isPrefixOf_iff_prefix] at hstarts
        obtain ⟨⟨⟨tail, htail⟩, -⟩, hedge⟩ := hstarts
        -- What follows the name would not be a word character.
        have hend : tail.head?.any isWordChar = false := by
          rw [← htail, drop_left, hlast, getLast?_concat] at hedge
          simpa [isWordEdge, (class_of_ascii_word hword).1] using hedge
        cases tail with
        | nil => exact hne (by rw [← htail, append_nil])
        | cons d tail =>
          have hd := hchars d (by rw [← htail]; simp)
          simp [hd] at hend
      have hinside : ∀ d ∈ rest, isWordChar d = true := fun d hd => hchars d (by simp [hd])
      have hrest : replaceWordFrom word new 0 (some c) (rest ++ []) = rest ++ [] :=
        replace_word_inside hinside (hchars c (by simp)) []
      rw [append_nil] at hrest
      rw [replaceWordFrom, if_neg (by simp [hnone]), hrest]

section

variable {word new : String}

theorem renamed_self (hname : IsName word.toList) : renamed word new word = new := by
  rw [renamed, replace_word_self hname, String.ofList_toList]

theorem renamed_longer (hlong : old.toList.length ≤ word.toList.length) (hne : old ≠ word) :
    renamed word new old = old := by
  rw [renamed, replace_word_longer hlong fun heq => hne (String.toList_inj.mp heq), String.ofList_toList]

theorem renamed_one (hname : IsName word.toList) (hold : IsWord old.toList) :
    renamed word new old = if old = word then new else old := by
  rw [renamed, replace_word_one hname fun c hc => (class_of_ascii_word (hold.2 c hc)).1]
  simp only [String.toList_inj]
  split <;> rw [String.ofList_toList]

end

/-! ## Folded names -/

theorem IsName.of_word (hword : IsWord word) (hstarts : word.head?.any startsName = true) : IsName word where
  starts := hstarts
  mem c hc := .inl (hword.2 c hc)
  ends := by
    rw [getLast?_eq_some_getLast hword.1]
    exact hword.2 _ (getLast_mem hword.1)

/-- The name that a rule has when its name has been folded, unless it is spelt like a terminal. -/
def foldedName (name : String) : String := if isTerminalSpelling name then name else foldName name

theorem starts_of_lower (h : word.head?.any Char.isLower = true) : word.head?.any startsName = true := by
  cases word with
  | nil => cases h
  | cons c rest =>
    have hlower : c.isLower = true := h
    show (c.isUpper || c.isLower) = true
    rw [hlower, Bool.or_true]

section

variable (h : IsName name.toList)

include h

theorem IsName.fold_word : IsWord (foldName name).toList := by
  obtain ⟨c, rest, hchars, _⟩ := h.exists_cons
  exact fold_name_word (by simp [hchars]) h.mem

theorem IsName.fold_name : IsName (foldName name).toList :=
  .of_word h.fold_word (starts_of_lower (fold_starts_lower h.starts))

theorem IsName.folded_word : IsWord (foldedName name).toList := by
  unfold foldedName
  split
  · next hspelling => exact terminal_word hspelling
  · exact h.fold_word

theorem IsName.utf8_size : name.utf8ByteSize = name.toList.length := by
  have hsize := utf8_size_ascii fun c hc => ascii_of_part (h.mem c hc)
  rwa [String.ofList_toList] at hsize

/-! ## Replacing names one after another -/

def replaceAll (entries : FoldedNames) (text : List Char) : List Char :=
  entries.foldl (fun text entry => replaceWord entry.2 entry.1 text) text

def renamedAll (entries : FoldedNames) (name : String) : String :=
  entries.foldl (fun name entry => renamed entry.2 entry.1 name) name

def NamesOnly (entries : FoldedNames) : Prop := ∀ entry ∈ entries, IsName entry.1.toList ∧ IsName entry.2.toList

end

section

variable (hentries : NamesOnly entries) (hwithout : ∀ c ∈ without, isAsciiWord c = false ∧ c ∉ [' ', ':'])
  (h : Tidy without text)

include hentries hwithout h

theorem Tidy.replace_all (hbars : Unbroken text) :
    Tidy without (replaceAll entries text) ∧ Unbroken (replaceAll entries text) := by
  induction entries generalizing text with
  | nil => exact ⟨h, hbars⟩
  | cons entry entries ih =>
    obtain ⟨hnew, hname⟩ := hentries entry (by simp)
    exact ih (fun other hother => hentries other (mem_cons_of_mem entry hother))
      (h.replace_word hnew hwithout) (h.unbroken_replace_word hname hnew hbars)

theorem mem_heads_replace_all :
    name ∈ heads (replaceAll entries text) ↔ ∃ old ∈ heads text, name = renamedAll entries old := by
  induction entries generalizing text with
  | nil => simp [replaceAll, renamedAll]
  | cons entry entries ih =>
    obtain ⟨hnew, hname⟩ := hentries entry (by simp)
    have htidy : Tidy without (replaceWord entry.2 entry.1 text) := h.replace_word hnew hwithout
    have hrest := ih (fun other hother => hentries other (mem_cons_of_mem entry hother)) htidy
    refine hrest.trans ⟨?_, ?_⟩
    · rintro ⟨between, hbetween, rfl⟩
      obtain ⟨old, hold, rfl⟩ := (mem_heads_replace_word h hname hnew).mp hbetween
      exact ⟨old, hold, rfl⟩
    · rintro ⟨old, hold, rfl⟩
      exact ⟨_, (mem_heads_replace_word h hname hnew).mpr ⟨old, hold, rfl⟩, rfl⟩

end

theorem renamed_all_of_stays (h : ∀ entry ∈ entries, renamed entry.2 entry.1 name = name) :
    renamedAll entries name = name := by
  induction entries with
  | nil => rfl
  | cons entry entries ih =>
    have hrest := ih fun other hother => h other (mem_cons_of_mem entry hother)
    rw [renamedAll, foldl_cons, h entry (by simp)]
    exact hrest

section

variable {entry : String × String} (hnames : ∀ name ∈ names, IsName name.toList)
  (hfolded : foldNames names = .ok folded)

include hnames hfolded

theorem renamings_changes (h : entry ∈ renamings folded) : entry.1 = foldName entry.2 ∧ entry.1 ≠ entry.2 ∧
    isTerminalSpelling entry.2 = false ∧ IsName entry.2.toList := by
  obtain ⟨hmem, hne⟩ := mem_of_mem_renamings h
  obtain ⟨hfold, hknown, hspelling⟩ := folded_of_fold_names hfolded entry hmem
  exact ⟨hfold, hne, hspelling, hnames _ hknown⟩

theorem renamed_kept (hword : IsWord name.toList) (hkept : isTerminalSpelling name = true ∨ foldName name = name)
    (h : entry ∈ renamings folded) : renamed entry.2 entry.1 name = name := by
  obtain ⟨hfold, hne, hspelling, hisName⟩ := renamings_changes hnames hfolded h
  rw [renamed_one hisName hword, if_neg]
  rintro rfl
  rcases hkept with hterminal | hsame
  · rw [hspelling] at hterminal
    cases hterminal
  · exact hne (hfold.trans hsame)

theorem renamed_all_changed (hname : name ∈ names) (h : (foldName name, name) ∈ renamings folded) :
    renamedAll (renamings folded) name = foldName name := by
  have hisName := hnames name hname
  have hsorted : (renamings folded).Pairwise _ := longest_first_sorted _ _
  obtain ⟨longer, shorter, hsplit, hfirst⟩ := eq_append_cons_of_mem h
  -- Up to the turn of the name only other names that are not shorter are replaced.
  have hbefore : renamedAll longer name = name := by
    refine renamed_all_of_stays fun entry hlonger => ?_
    have hmem : entry ∈ renamings folded := by simp [hsplit, hlonger]
    obtain ⟨hfold, _, _, hother⟩ := renamings_changes hnames hfolded hmem
    rw [hsplit, pairwise_append] at hsorted
    have hsize : name.utf8ByteSize ≤ entry.2.utf8ByteSize := hsorted.2.2 entry hlonger (foldName name, name) (by simp)
    refine renamed_longer ?_ ?_
    · rwa [hisName.utf8_size, hother.utf8_size] at hsize
    · rintro rfl
      exact hfirst (hfold ▸ hlonger)
  have hafter : renamedAll shorter (foldName name) = foldName name := by
    refine renamed_all_of_stays fun entry hshorter => ?_
    exact renamed_kept hnames hfolded hisName.fold_word (.inr (fold_name_fold hisName.mem))
      (by simp [hsplit, hshorter])
  rw [hsplit]
  unfold renamedAll at hbefore hafter ⊢
  rw [foldl_append, hbefore, foldl_cons, renamed_self hisName, hafter]

theorem renamed_all_renamings (hname : name ∈ names) : renamedAll (renamings folded) name = foldedName name := by
  have hword := (hnames name hname).folded_word
  by_cases hkept : isTerminalSpelling name = true ∨ foldName name = name
  · have hsame : foldedName name = name := by
      unfold foldedName
      split
      · rfl
      · next hspelling => exact hkept.resolve_left hspelling
    rw [hsame] at hword ⊢
    exact renamed_all_of_stays fun entry hentry => renamed_kept hnames hfolded hword hkept hentry
  · rw [not_or, Bool.not_eq_true] at hkept
    obtain ⟨hspelling, hne⟩ := hkept
    have hmem : (foldName name, name) ∈ renamings folded :=
      mem_mergeSort.mpr (mem_filter.mpr ⟨mem_of_fold_names hfolded hname hspelling, by simpa using hne⟩)
    rw [renamed_all_changed hnames hfolded hname hmem, foldedName, if_neg (by simp [hspelling])]

end

/-! ## Terminals -/

section

variable (h : isSnakeCase name = true)

include h

theorem upper_case_terminal : isTerminalSpelling (upperCase name) = true := by
  have hascii : ∀ c ∈ name.toList, c.toNat < 0x80 := fun c hc => ascii_of_word ((snake_case_word h).1.2 c hc)
  unfold isTerminalSpelling
  rw [upper_case_ascii hascii]
  unfold isSnakeCase at h
  split at h
  · cases h
  · next c rest hchars =>
    rw [hchars] at hascii ⊢
    rw [Bool.and_eq_true, all_eq_true] at h
    have hclass : ∀ d ∈ c :: rest, (d.isLower = true → d.toUpper.isUpper = true) ∧
        ((d.isLower || d.isDigit || d == '_') = true →
          (d.toUpper.isUpper || d.toUpper.isDigit || d.toUpper == '_') = true) := by
      intro d hd
      exact of_ascii (hascii d hd) (by decide)
    rw [map_cons, Bool.and_eq_true, all_eq_true]
    refine ⟨(hclass c (by simp)).1 h.1, fun d hd => ?_⟩
    obtain ⟨e, he, rfl⟩ := mem_map.mp hd
    exact (hclass e (by simp [he])).2 (h.2 e he)

theorem not_terminal_of_snake : isTerminalSpelling name = false := by
  rw [Bool.eq_false_iff]
  intro hspelling
  have hlower := (snake_case_word h).2
  rw [terminal_starts hspelling] at hlower
  cases hlower

theorem IsName.of_snake_case : IsName name.toList :=
  .of_word (snake_case_word h).1 (starts_of_lower (snake_case_word h).2)

theorem upper_case_word : IsWord (upperCase name).toList := by
  obtain ⟨hne, hchars⟩ := (snake_case_word h).1
  rw [upper_case_ascii fun c hc => ascii_of_word (hchars c hc)]
  refine ⟨by simpa using hne, fun c hc => ?_⟩
  obtain ⟨d, hd, rfl⟩ := mem_map.mp hc
  exact (class_of_upper (hchars d hd)).1

theorem IsName.of_upper_case : IsName (upperCase name).toList := by
  refine .of_word (upper_case_word h) ?_
  have hspelling := upper_case_terminal h
  unfold isTerminalSpelling at hspelling
  split at hspelling
  · cases hspelling
  · next c rest hchars =>
    rw [Bool.and_eq_true] at hspelling
    rw [hchars]
    show (c.isUpper || c.isLower) = true
    rw [hspelling.1, Bool.true_or]

def promotions (terminals : List String) : FoldedNames := terminals.map fun terminal => (upperCase terminal, terminal)

end

section

variable (hsnake : ∀ terminal ∈ terminals, isSnakeCase terminal = true)

include hsnake

theorem names_only_promotions :
    NamesOnly (promotions terminals) := by
  intro entry hentry
  obtain ⟨terminal, hterminal, rfl⟩ := mem_map.mp hentry
  exact ⟨.of_upper_case (hsnake terminal hterminal), .of_snake_case (hsnake terminal hterminal)⟩

def promotedName (terminals : List String) (name : String) : String := if name ∈ terminals then upperCase name else name

theorem upper_case_fresh (h : isSnakeCase name = true) : upperCase name ∉ terminals := by
  intro hmem
  have hspelling := not_terminal_of_snake (hsnake _ hmem)
  rw [upper_case_terminal h] at hspelling
  cases hspelling

theorem renamed_all_promotions
    (hword : IsWord name.toList) : renamedAll (promotions terminals) name = promotedName terminals name := by
  induction terminals generalizing name with
  | nil => simp [promotions, renamedAll, promotedName]
  | cons terminal terminals ih =>
    have hterminal := hsnake terminal (by simp)
    have hrest : ∀ other ∈ terminals, isSnakeCase other = true := fun other hother =>
      hsnake other (mem_cons_of_mem terminal hother)
    have hstep : renamedAll (promotions (terminal :: terminals)) name =
        renamedAll (promotions terminals) (if name = terminal then upperCase terminal else name) := by
      rw [← renamed_one (.of_snake_case hterminal) hword]
      rfl
    rw [hstep]
    split
    · next heq =>
      rw [ih hrest (upper_case_word hterminal), heq]
      simp [promotedName, upper_case_fresh hrest hterminal]
    · next hne =>
      rw [ih hrest hword]
      simp [promotedName, hne]

end

theorem promote_all_eq_ok (h : terminals.foldlM (promote names folded) text = .ok out) :
    out = replaceAll (promotions terminals) text ∧
      ∀ terminal ∈ terminals, (∃ entry ∈ folded, entry.1 = terminal) ∨ upperCase terminal ∈ names := by
  induction terminals generalizing text with
  | nil =>
    cases h
    exact ⟨rfl, by simp⟩
  | cons terminal terminals ih =>
    rw [foldlM_cons] at h
    obtain ⟨next, hnext, hrest⟩ := bind_eq_ok h
    obtain ⟨hknown, rfl⟩ := promote_eq_ok hnext
    obtain ⟨hout, hothers⟩ := ih hrest
    refine ⟨hout, fun other hother => ?_⟩
    rcases mem_cons.mp hother with rfl | hmem
    · exact hknown
    · exact hothers other hmem

/-! ## The names of a converted text -/

section

variable (hnames : ∀ name ∈ names, IsName name.toList) (hfolded : foldNames names = .ok folded)
  (hsnake : ∀ terminal ∈ terminals, isSnakeCase terminal = true)

include hnames hfolded hsnake

theorem names_only_converted : NamesOnly (renamings folded ++ promotions terminals) := by
  intro entry hentry
  rcases mem_append.mp hentry with hmem | hmem
  · obtain ⟨hfold, _, _, hname⟩ := renamings_changes hnames hfolded hmem
    rw [hfold]
    exact ⟨hname.fold_name, hname⟩
  · exact names_only_promotions hsnake entry hmem

theorem renamed_all_converted (hname : name ∈ names) :
    renamedAll (renamings folded ++ promotions terminals) name = promotedName terminals (foldedName name) := by
  have hfold := renamed_all_renamings hnames hfolded hname
  have hpromote := renamed_all_promotions hsnake (hnames name hname).folded_word
  rw [renamedAll] at hfold hpromote ⊢
  rw [foldl_append, hfold, hpromote]

end

end FlightProcedure.Ebnf
