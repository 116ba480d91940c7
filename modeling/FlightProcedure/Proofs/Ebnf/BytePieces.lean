import FlightProcedure.Proofs.Ebnf.Segmentation
import Mathlib.Data.List.Chain

/-!
# A grammar text is cut between characters

The pieces of a text can be found by a look at its bytes alone, since no byte of a character outside ASCII is a
mark. There a backslash may protect the first byte of a character only, but none of the others is a mark either:
`escaped_encode`. So the bytes are cut where the text is cut, and `segments_partition` says what the pieces are.
-/

namespace FlightProcedure

open List

def encode (text : List Char) : List UInt8 := text.flatMap String.utf8EncodeChar

namespace Segment

/-- The bytes up to and including a closing mark, and what follows. A backslash may protect the byte after it. -/
def closedBytes (escapes : Bool) (mark : UInt8) : List UInt8 → List UInt8 × List UInt8
  | [] => ([], [])
  | [b] => ([b], [])
  | b :: next :: rest =>
    if b = mark then ([b], next :: rest)
    else if escapes && b == 0x5c then
      let (bytes, rest) := closedBytes escapes mark rest
      (b :: next :: bytes, rest)
    else
      let (bytes, rest) := closedBytes escapes mark (next :: rest)
      (b :: bytes, rest)

def isFlagByte (b : UInt8) : Bool := b == 0x69 || b == 0x6d || b == 0x73 || b == 0x75 || b == 0x78

/-- The literal that starts with a byte, and what follows it, if a literal can start with that byte. -/
def literalBytes? (b : UInt8) (rest : List UInt8) : Option (List UInt8 × List UInt8) :=
  if b = 0x22 then
    let (bytes, rest) := closedBytes true 0x22 rest
    some (0x22 :: bytes, rest)
  else if b = 0x27 then
    let (bytes, rest) := closedBytes false 0x27 rest
    some (0x27 :: bytes, rest)
  else if b = 0x2f then
    if rest.head? = some 0x2f then
      some (0x2f :: rest.takeWhile (· != 0x0a), rest.dropWhile (· != 0x0a))
    else
      let (bytes, rest) := closedBytes true 0x2f rest
      some (0x2f :: bytes ++ rest.takeWhile isFlagByte, rest.dropWhile isFlagByte)
  else none

def codeBytes (code : List UInt8) : List (Bool × List UInt8) := if code.isEmpty then [] else [(false, code.reverse)]

/-- The pieces of bytes after some code, which is given last byte first, each with whether it is a literal. The
fuel is the number of bytes. -/
def bytePiecesFrom : Nat → List UInt8 → List UInt8 → List (Bool × List UInt8)
  | 0, code, _ => codeBytes code
  | _ + 1, code, [] => codeBytes code
  | fuel + 1, code, b :: rest =>
    match literalBytes? b rest with
    | none => bytePiecesFrom fuel (b :: code) rest
    | some (bytes, rest) => codeBytes code ++ (true, bytes) :: bytePiecesFrom fuel [] rest

end Segment

def bytePieces (bytes : List UInt8) : List (Bool × List UInt8) := Segment.bytePiecesFrom bytes.length [] bytes

section

variable {c mark : Char} {b : UInt8} {text : List Char}

theorem encode_cons (c : Char) (text : List Char) : encode (c :: text) = String.utf8EncodeChar c ++ encode text :=
  flatMap_cons

theorem encode_append (front back : List Char) : encode (front ++ back) = encode front ++ encode back :=
  flatMap_append

theorem encode_ascii (hc : c.toNat < 0x80) : String.utf8EncodeChar c = [c.toUInt8] :=
  String.utf8EncodeChar_eq_singleton
    (Char.utf8Size_eq_one_iff.mpr (UInt32.le_iff_toNat_le.mpr (Nat.le_of_lt_succ hc)))

theorem high_of_encode (hc : ¬ c.toNat < 0x80) : ∀ b ∈ String.utf8EncodeChar c, 0x80 ≤ b.toNat := by
  have hor : ∀ x y : UInt8, 0x80 ≤ y.toNat → 0x80 ≤ (x ||| y).toNat := by
    intro x y hy
    rw [UInt8.toNat_or]
    exact Nat.le_trans hy Nat.right_le_or
  have hlead : ∀ x : UInt8, 0x80 ≤ (x ||| 0x80).toNat := fun x => hor x 0x80 (by decide)
  obtain h | h | h | h := Char.utf8Size_eq c
  · exact absurd (Nat.lt_succ_of_le (UInt32.le_iff_toNat_le.mp (Char.utf8Size_eq_one_iff.mp h))) hc
  · rw [String.utf8EncodeChar_eq_cons_cons h]
    simp only [forall_mem_cons]
    exact ⟨hor _ 0xc0 (by decide), hlead _, nofun⟩
  · rw [String.utf8EncodeChar_eq_cons_cons_cons h]
    simp only [forall_mem_cons]
    exact ⟨hor _ 0xe0 (by decide), hlead _, hlead _, nofun⟩
  · rw [String.utf8EncodeChar_eq_cons_cons_cons_cons h]
    simp only [forall_mem_cons]
    exact ⟨hor _ 0xf0 (by decide), hlead _, hlead _, hlead _, nofun⟩

theorem byte_of_ascii (hc : c.toNat < 0x80) : c.toUInt8.toNat = c.toNat := by
  rw [Char.toUInt8, UInt32.toNat_toUInt8]
  exact Nat.mod_eq_of_lt (Nat.lt_trans hc (by decide))

/-- Each byte of a character tells whether the character is an ASCII mark. -/
theorem byte_eq_mark (mark : Char) (hmark : mark.toNat < 0x80) (hb : b ∈ String.utf8EncodeChar c) :
    b = mark.toUInt8 ↔ c = mark := by
  have hbyte := byte_of_ascii hmark
  by_cases hc : c.toNat < 0x80
  · rw [encode_ascii hc, mem_singleton] at hb
    refine ⟨fun h => ?_, fun h => h ▸ hb⟩
    have hsame : c.toNat = mark.toNat := by rw [← byte_of_ascii hc, ← hb, h, hbyte]
    exact Char.toNat_inj.mp hsame
  · have hhigh := high_of_encode hc b hb
    refine iff_of_false (fun h => ?_) fun h => hc (h ▸ hmark)
    rw [h, hbyte] at hhigh
    omega

/-- No byte of a character but the first is an ASCII mark. -/
theorem later_ne_mark (mark : Char) (hmark : mark.toNat < 0x80) {more : List UInt8} {later : UInt8}
    (hc : String.utf8EncodeChar c = b :: more) (hlater : later ∈ more) : later ≠ mark.toUInt8 := by
  intro h
  have hmem : later ∈ String.utf8EncodeChar c := by simp [hc, hlater]
  obtain rfl := (byte_eq_mark mark hmark hmem).mp h
  rw [encode_ascii hmark] at hc
  simp_all

theorem exists_first_byte (c : Char) : ∃ b more, String.utf8EncodeChar c = b :: more :=
  exists_cons_of_ne_nil String.utf8EncodeChar_ne_nil

theorem take_while_encode {p : Char → Bool} {q : UInt8 → Bool}
    (h : ∀ c : Char, ∀ b ∈ String.utf8EncodeChar c, q b = p c) (text : List Char) :
    (encode text).takeWhile q = encode (text.takeWhile p) ∧
      (encode text).dropWhile q = encode (text.dropWhile p) := by
  induction text with
  | nil => exact ⟨rfl, rfl⟩
  | cons c text ih =>
    rw [encode_cons]
    by_cases hc : p c = true
    · have hbytes : ∀ b ∈ String.utf8EncodeChar c, q b = true := fun b hb => (h c b hb).trans hc
      rw [takeWhile_append_of_pos hbytes, dropWhile_append_of_pos hbytes, ih.1, ih.2]
      simp [hc, encode_cons]
    · obtain ⟨b, more, hbytes⟩ := exists_first_byte c
      have hb : q b = p c := h c b (by simp [hbytes])
      simp [hbytes, hb, hc, encode]

end

namespace Segment

variable {c mark : Char} {escapes : Bool} {rest : List Char}

theorem closed_bytes_cons {stop b : UInt8} (hb : b ≠ stop) (hescape : escapes = true → b ≠ 0x5c)
    (rest : List UInt8) : closedBytes escapes stop (b :: rest) =
      (b :: (closedBytes escapes stop rest).1, (closedBytes escapes stop rest).2) := by
  cases rest with
  | nil => rfl
  | cons next rest => rw [closedBytes, if_neg hb, if_neg (by simpa using hescape)]

theorem closed_bytes_skip {stop : UInt8} {front : List UInt8}
    (h : ∀ b ∈ front, b ≠ stop ∧ (escapes = true → b ≠ 0x5c)) (rest : List UInt8) :
    closedBytes escapes stop (front ++ rest) =
      (front ++ (closedBytes escapes stop rest).1, (closedBytes escapes stop rest).2) := by
  induction front with
  | nil => rfl
  | cons b front ih =>
    obtain ⟨hb, hfront⟩ := forall_mem_cons.mp h
    rw [cons_append, closed_bytes_cons hb.1 hb.2, ih hfront, cons_append]

theorem closed_bytes_mark (stop : UInt8) (rest : List UInt8) :
    closedBytes escapes stop (stop :: rest) = ([stop], rest) := by
  cases rest <;> simp [closedBytes]

theorem closed_bytes_other (hmark : mark.toNat < 0x80) (hc : c ≠ mark) (hescape : escapes = true → c ≠ '\\')
    (rest : List UInt8) : closedBytes escapes mark.toUInt8 (String.utf8EncodeChar c ++ rest) =
      (String.utf8EncodeChar c ++ (closedBytes escapes mark.toUInt8 rest).1,
        (closedBytes escapes mark.toUInt8 rest).2) :=
  closed_bytes_skip (fun _ hb => ⟨mt (byte_eq_mark mark hmark hb).mp hc,
    fun h => mt (byte_eq_mark '\\' (by decide) hb).mp (hescape h)⟩) rest

theorem plain_encode (mark : Char) (hmark : mark.toNat < 0x80) (text : List Char) :
    closedBytes false mark.toUInt8 (encode text) =
      (encode (plainLiteral mark text).1, encode (plainLiteral mark text).2) := by
  fun_induction plainLiteral mark text with
  | case1 => rfl
  | case2 rest => simp [encode_ascii hmark, closed_bytes_mark, encode]
  | case3 c rest hc body after hrest ih =>
    rw [encode_cons, closed_bytes_other hmark hc (by simp), ih, hrest, encode_cons]

theorem escaped_encode (mark : Char) (hmark : mark.toNat < 0x80) (hne : mark ≠ '\\') (text : List Char) :
    closedBytes true mark.toUInt8 (encode text) =
      (encode (escapedLiteral mark text).1, encode (escapedLiteral mark text).2) := by
  have hbackslash : String.utf8EncodeChar '\\' = [0x5c] := by decide
  have hstop : (0x5c : UInt8) ≠ mark.toUInt8 := mt (byte_eq_mark mark hmark (by decide)).mp hne.symm
  fun_induction escapedLiteral mark text with
  | case1 => rfl
  | case2 c rest body after hrest ih =>
    obtain ⟨b, more, hbytes⟩ := exists_first_byte c
    have hmore : ∀ later ∈ more, later ≠ mark.toUInt8 ∧ (true = true → later ≠ 0x5c) := fun later hlater =>
      ⟨later_ne_mark mark hmark hbytes hlater, fun _ => later_ne_mark '\\' (by decide) hbytes hlater⟩
    have hskip := closed_bytes_skip hmore (encode rest)
    simp only [encode_cons, hbackslash, hbytes, cons_append, nil_append]
    rw [closedBytes, if_neg hstop, if_pos (by decide), hskip, ih, hrest]
  | case3 rest => simp [encode_ascii hmark, closed_bytes_mark, encode]
  | case4 c rest hpair hc body after hrest ih =>
    by_cases hslash : c = '\\'
    · -- A backslash at the end of the text protects nothing.
      cases rest with
      | nil =>
        cases hrest
        simp [hslash, encode, hbackslash, closedBytes]
      | cons d rest => exact absurd rfl (hpair d rest hslash)
    · rw [encode_cons, closed_bytes_other hmark hc (fun _ => hslash), ih, hrest, encode_cons]

theorem literal_encode (hc : opensLiteral c = true) (rest : List Char) :
    literalBytes? c.toUInt8 (encode rest) = (literal? c rest).map fun (text, after) => (encode text, encode after) := by
  have hhead : (encode rest).head? = some 0x2f ↔ rest.head? = some '/' := by
    cases rest with
    | nil => simp [encode]
    | cons d rest =>
      obtain ⟨b, more, hbytes⟩ := exists_first_byte d
      have hb : b = 0x2f ↔ d = '/' := byte_eq_mark '/' (by decide) (by simp [hbytes])
      simpa [encode_cons, hbytes] using hb
  have hline := take_while_encode (p := (· != '\n')) (q := (· != 0x0a)) (fun d b hb => by
    rw [Bool.eq_iff_iff, bne_iff_ne, bne_iff_ne]
    exact not_congr (byte_eq_mark '\n' (by decide) hb)) rest
  have hflags := take_while_encode (p := isPatternFlag) (q := isFlagByte) fun d b hb => by
    have hflag : ∀ flag : Char, flag.toNat < 0x80 → (b = flag.toUInt8 ↔ d = flag) :=
      fun flag h => byte_eq_mark flag h hb
    rw [Bool.eq_iff_iff, isFlagByte, isPatternFlag]
    simp only [Bool.or_eq_true, beq_iff_eq]
    exact or_congr (or_congr (or_congr (or_congr (hflag 'i' (by decide)) (hflag 'm' (by decide)))
      (hflag 's' (by decide))) (hflag 'u' (by decide))) (hflag 'x' (by decide))
  simp only [opensLiteral, Bool.or_eq_true, beq_iff_eq] at hc
  rcases hc with (rfl | rfl) | rfl
  · have hbody : closedBytes true 0x22 (encode rest) = _ := escaped_encode '"' (by decide) (by decide) rest
    have hmark : String.utf8EncodeChar '"' = [0x22] := by decide
    show literalBytes? 0x22 (encode rest) = _
    simp [literalBytes?, literal?, hbody, hmark, encode_cons]
  · have hbody : closedBytes false 0x27 (encode rest) = _ := plain_encode '\'' (by decide) rest
    have hmark : String.utf8EncodeChar '\'' = [0x27] := by decide
    show literalBytes? 0x27 (encode rest) = _
    simp [literalBytes?, literal?, hbody, hmark, encode_cons]
  · have hbody : closedBytes true 0x2f (encode rest) = _ := escaped_encode '/' (by decide) (by decide) rest
    have hmark : String.utf8EncodeChar '/' = [0x2f] := by decide
    show literalBytes? 0x2f (encode rest) = _
    by_cases hcomment : rest.head? = some '/'
    · simp [literalBytes?, literal?, hhead, hcomment, hline, hmark, encode_cons]
    · simp [literalBytes?, literal?, hhead, hcomment, hbody, hflags, hmark, encode_cons, encode_append]

theorem literal_bytes_none {b : UInt8} (hc : opensLiteral c = false) (hb : b ∈ String.utf8EncodeChar c)
    (rest : List UInt8) : literalBytes? b rest = none := by
  simp only [opensLiteral, Bool.or_eq_false_iff, beq_eq_false_iff_ne] at hc
  have hquote : b ≠ 0x22 := mt (byte_eq_mark '"' (by decide) hb).mp hc.1.1
  have hplain : b ≠ 0x27 := mt (byte_eq_mark '\'' (by decide) hb).mp hc.1.2
  have hslash : b ≠ 0x2f := mt (byte_eq_mark '/' (by decide) hb).mp hc.2
  simp [literalBytes?, hquote, hplain, hslash]

theorem byte_pieces_plain {code : List Char} (hcode : Plain code) (fuel : Nat) (before rest : List UInt8) :
    bytePiecesFrom (fuel + (encode code).length) before (encode code ++ rest) =
      bytePiecesFrom fuel ((encode code).reverse ++ before) rest := by
  have hnone : ∀ b ∈ encode code, ∀ rest, literalBytes? b rest = none := fun b hb rest => by
    obtain ⟨c, hc, hb⟩ := mem_flatMap.mp hb
    exact literal_bytes_none (hcode c hc) hb rest
  generalize encode code = bytes at hnone ⊢
  induction bytes generalizing before with
  | nil => rfl
  | cons b bytes ih =>
    obtain ⟨hb, hbytes⟩ := forall_mem_cons.mp hnone
    rw [length_cons, ← Nat.add_assoc, cons_append, bytePiecesFrom, hb]
    simp only [ih _ hbytes, reverse_cons, append_assoc, singleton_append]

def toBytes (piece : Segment) : Bool × List UInt8 := (piece.literal, encode piece.text)

theorem code_bytes_encode (code : List Char) :
    codeBytes (encode code).reverse = (codeBefore code.reverse).map toBytes := by
  cases code with
  | nil => rfl
  | cons c code => simp [codeBytes, codeBefore, toBytes, encode_cons, String.utf8EncodeChar_ne_nil]

theorem ascii_of_opens (hc : opensLiteral c = true) : c.toNat < 0x80 := by
  simp only [opensLiteral, Bool.or_eq_true, beq_iff_eq] at hc
  rcases hc with (rfl | rfl) | rfl <;> decide

theorem Closes.opens {after : List Char} (h : Closes (c :: rest) after) : opensLiteral c = true := by
  cases h <;> rfl

end Segment

open Segment

variable {text : List Char} {literals : List (List Char)} {fits : List Char → List Char → Prop}

theorem Cut.byte_pieces (h : Cut fits text literals) {fuel : Nat} (hfuel : (encode text).length ≤ fuel) :
    bytePiecesFrom fuel [] (encode text) = (segments text).map toBytes := by
  induction h generalizing fuel with
  | @code code hcode =>
    obtain ⟨extra, rfl⟩ := Nat.exists_eq_add_of_le' hfuel
    have hpieces := byte_pieces_plain hcode extra [] []
    rw [append_nil, append_nil] at hpieces
    rw [hpieces, segments_of_plain hcode, ← code_bytes_encode]
    cases extra <;> rfl
  | @literal code literal after literals hcode hcloses _ _ ih =>
    cases literal with
    | nil => cases hcloses
    | cons c body =>
      have hopens := hcloses.opens
      have hbytes : encode (code ++ (c :: body ++ after)) = encode code ++ c.toUInt8 :: encode (body ++ after) := by
        have hc : String.utf8EncodeChar c = [c.toUInt8] := encode_ascii (ascii_of_opens hopens)
        rw [encode_append, cons_append, encode_cons, hc, singleton_append]
      rw [hbytes, length_append, length_cons, encode_append, length_append] at hfuel
      obtain ⟨extra, rfl⟩ := Nat.exists_eq_add_of_le' (Nat.le_trans (Nat.le_add_right _ _) hfuel)
      obtain ⟨extra, rfl⟩ : ∃ more, extra = more + 1 := ⟨extra - 1, by omega⟩
      rw [hbytes, byte_pieces_plain hcode, bytePiecesFrom, literal_encode hopens, hcloses.literal_eq]
      have hafter := @ih extra (by omega)
      rw [segments_of_literal hcode hcloses, map_append, map_cons, ← code_bytes_encode, ← hafter]
      simp [toBytes]

theorem code_before_eq (code : List Char) : codeBefore code.reverse = if code = [] then [] else [⟨false, code⟩] := by
  cases code <;> simp [codeBefore]

theorem Cut.pieces (h : Cut fits text literals) : ∀ piece ∈ segments text, piece.text ≠ [] ∧
    if piece.literal then piece.text.head?.any opensLiteral = true else Plain piece.text := by
  have hbefore : ∀ {code : List Char}, Plain code → ∀ piece ∈ codeBefore code.reverse, piece.text ≠ [] ∧
      if piece.literal then piece.text.head?.any opensLiteral = true else Plain piece.text := by
    intro code hcode
    rw [code_before_eq]
    split
    · simp
    · next hne => simpa using ⟨hne, hcode⟩
  induction h with
  | code hcode =>
    rw [segments_of_plain hcode]
    exact hbefore hcode
  | @literal code literal after literals hcode hcloses _ _ ih =>
    rw [segments_of_literal hcode hcloses, forall_mem_append, forall_mem_cons]
    refine ⟨hbefore hcode, ?_, ih⟩
    cases literal with
    | nil => cases hcloses
    | cons c body => simp [hcloses.opens]

theorem Cut.is_chain (h : Cut fits text literals) :
    (segments text).IsChain fun first second => first.literal = true ∨ second.literal = true := by
  induction h with
  | code hcode =>
    rw [segments_of_plain hcode, code_before_eq]
    split <;> simp
  | @literal code literal after _ hcode hcloses _ _ ih =>
    have hchain : (⟨true, literal⟩ :: segments after).IsChain fun first second : Segment =>
        first.literal = true ∨ second.literal = true := by
      cases hpieces : segments after with
      | nil => simp
      | cons piece pieces => simpa [hpieces] using ih
    rw [segments_of_literal hcode hcloses, code_before_eq]
    split
    · exact hchain
    · simpa using hchain

/-- Every text is the join of its pieces, none of which is empty. Code holds no quote and no slash, a literal
starts with one of them, and no two pieces of code are neighbours; so what is done to the code by doing nothing
changes nothing. The fuel never runs out, and the bytes of the text are cut between characters, into the bytes of
the pieces. -/
theorem segments_partition (text : List Char) :
    (segments text).flatMap (·.text) = text ∧
    (∀ piece ∈ segments text, piece.text ≠ []) ∧
    (∀ piece ∈ segments text, piece.literal = false → '"' ∉ piece.text ∧ '\'' ∉ piece.text ∧ '/' ∉ piece.text) ∧
    (∀ piece ∈ segments text, piece.literal = true → ∃ c ∈ ['"', '\'', '/'], piece.text.head? = some c) ∧
    (segments text).IsChain (fun first second => first.literal = true ∨ second.literal = true) ∧
    mapCode id text = text ∧
    (∀ fuel, text.length ≤ fuel → segmentsFrom fuel [] text = segments text) ∧
    bytePieces (encode text) = (segments text).map (fun piece => (piece.literal, encode piece.text)) ∧
    ∀ front back, bytePieces (encode text) = front ++ back →
      ∃ before after, text = before ++ after ∧ front.flatMap (·.2) = encode before := by
  obtain ⟨literals, hcut⟩ := exists_cut text
  have hjoin := hcut.flat_map_segments
  have hbytes : bytePieces (encode text) = (segments text).map toBytes := hcut.byte_pieces (Nat.le_refl _)
  refine ⟨hjoin, fun piece hpiece => (hcut.pieces piece hpiece).1, fun piece hpiece hcode => ?_,
    fun piece hpiece hliteral => ?_, hcut.is_chain, ?_, fun fuel hfuel => segments_from_fuel hfuel (Nat.le_refl _),
    hbytes, fun front back hpieces => ?_⟩
  · have hplain : Plain piece.text := by simpa [hcode] using (hcut.pieces piece hpiece).2
    have hmark : ∀ c, opensLiteral c = true → c ∉ piece.text := fun c hc hmem => by simp [hplain c hmem] at hc
    exact ⟨hmark _ rfl, hmark _ rfl, hmark _ rfl⟩
  · have hopens := (hcut.pieces piece hpiece).2
    rw [hliteral, if_pos rfl] at hopens
    cases hhead : piece.text.head? with
    | none => simp [hhead] at hopens
    | some c => exact ⟨c, by simpa [hhead, opensLiteral, or_assoc] using hopens, rfl⟩
  · simpa [mapCode] using hjoin
  · rw [hbytes] at hpieces
    obtain ⟨first, second, hsegments, rfl, rfl⟩ := map_eq_append_iff.mp hpieces
    refine ⟨first.flatMap (·.text), second.flatMap (·.text), ?_, ?_⟩
    · rw [← flatMap_append, ← hsegments, hjoin]
    · simp [flatMap_map, toBytes, encode, flatMap_assoc]

end FlightProcedure
