/-
Cutting a text from the left.

A text may start with several lexemes, `1.5e3` with `1`, `1.`, `1.5` and itself; the longest of them
is cut off.  This is done again after the blanks that follow, until nothing is left, or what is left
starts with no lexeme at all, or with a numeral that is beyond the largest double.

* **`Lexeme.IsLongest`**, **`Lexeme.scan?_eq_some_iff`**, **`Lexeme.scan?_eq_none_iff`** — what is
  cut off a text is the longest lexeme of the grammar that the text starts with;
* **`Cuts`**, **`Fails`** — the tokens that are cut off a text, and what ends the cutting;
* **`Token.scanAll_eq_ok_iff`**, **`Token.scanAll_eq_error_iff`** — what all tokens of a text are,
  or the first place where there is none.

That nothing longer could be cut off is a matter of what is left: whatever lexeme a text starts
with, scanning succeeds and leaves no more than this lexeme does.
-/
import FormulaSheet.Proofs.Formula.Spelling

namespace FormulaSheet

open Text (Stops)

theorem Text.length_dropWhile_append_le {p : Char → Bool} {text : List Char}
    (htext : ∀ c ∈ text, p c = true) (rest : List Char) :
    ((text ++ rest).dropWhile p).length ≤ rest.length := by
  rw [List.dropWhile_append_of_pos htext]
  exact (List.dropWhile_sublist p).length_le

/-! ### Numerals -/

namespace Number

variable {n : Numeral} {x : Exponent}

/-- Where an exponent is written, one is scanned that leaves no more. -/
theorem Exponent.IsSpelled.exists_scan?_append (h : x.IsSpelled) (rest : List Char) :
    ∃ y left, Exponent.scan? (x.text ++ rest) = some (y, left) ∧ left.length ≤ rest.length := by
  have hsign := h.scanSign_append rest
  have hdigits : (x.digits ++ rest).takeWhile Char.isDigit ≠ [] := by
    rw [List.takeWhile_append_of_pos h.digits]
    exact List.append_ne_nil_of_left_ne_nil h.ne_nil _
  refine ⟨⟨x.marker, x.sign, (x.digits ++ rest).takeWhile Char.isDigit⟩,
    (x.digits ++ rest).dropWhile Char.isDigit, ?_, Text.length_dropWhile_append_le h.digits rest⟩
  rw [Exponent.text, List.cons_append, Exponent.scan?, if_pos h.marker, hsign]
  simp only [List.isEmpty_iff, hdigits, if_false]

namespace Numeral

/-- Where digits are written with a point among or beside them, such digits are scanned, and no more
is left. -/
theorem IsLiteral.exists_scanDigits?_append (h : n.IsLiteral) (rest : List Char) :
    ∃ digits left, scanDigits? (n.whole ++ n.fraction.elim [] ('.' :: ·) ++ rest) =
      some (digits, left) ∧ left.length ≤ rest.length := by
  obtain ⟨whole, fraction, exponent⟩ := n
  have hwhole : ∀ c ∈ whole, c.isDigit = true := h.whole
  cases fraction with
  | some fraction =>
    have hfraction : ∀ c ∈ fraction, c.isDigit = true := h.fraction
    -- digits that follow are taken as well, so less may be left than was written
    have hpoint : Stops Char.isDigit ('.' :: (fraction ++ rest)) := Text.stops_cons (by decide)
    have hne : ¬ (whole.isEmpty && ((fraction ++ rest).takeWhile Char.isDigit).isEmpty) = true := by
      rw [Bool.and_eq_true, List.isEmpty_iff, List.isEmpty_iff,
        List.takeWhile_append_of_pos hfraction, List.append_eq_nil_iff]
      rintro ⟨rfl, rfl, -⟩
      exact h.ne_nil.elim (fun hnil => hnil rfl) (fun hnil => hnil rfl)
    refine ⟨⟨whole, some ((fraction ++ rest).takeWhile Char.isDigit), none⟩,
      (fraction ++ rest).dropWhile Char.isDigit, ?_, Text.length_dropWhile_append_le hfraction rest⟩
    rw [Option.elim_some, List.append_assoc, List.cons_append]
    unfold scanDigits?
    rw [Text.takeWhile_append_of_stops hwhole hpoint, Text.dropWhile_append_of_stops hwhole hpoint]
    exact if_neg hne
  | none =>
    have hne : ((whole ++ rest).takeWhile Char.isDigit).isEmpty = false := by
      rw [List.takeWhile_append_of_pos hwhole, List.isEmpty_eq_false_iff]
      exact List.append_ne_nil_of_left_ne_nil (h.ne_nil.resolve_right fun hnil => hnil rfl) _
    have hleft := Text.length_dropWhile_append_le hwhole rest
    rw [Option.elim_none, List.append_nil]
    unfold scanDigits?
    split
    · next after hafter =>
      -- a point follows, and is taken with the digits behind it
      have hdrop := (List.dropWhile_sublist Char.isDigit (l := after)).length_le
      rw [hafter, List.length_cons] at hleft
      refine ⟨⟨(whole ++ rest).takeWhile Char.isDigit, some (after.takeWhile Char.isDigit), none⟩,
        after.dropWhile Char.isDigit, ?_, by omega⟩
      simp only [hne, Bool.false_and, Bool.false_eq_true, if_false]
    · refine ⟨⟨(whole ++ rest).takeWhile Char.isDigit, none, none⟩,
        (whole ++ rest).dropWhile Char.isDigit, ?_, hleft⟩
      simp only [hne, Bool.false_eq_true, if_false]

theorem IsLiteral.exists_scan?_append (h : n.IsLiteral) (rest : List Char) :
    ∃ m left, scan? (n.text ++ rest) = some (m, left) ∧ left.length ≤ rest.length := by
  cases hexponent : n.exponent with
  | some x =>
    -- the digits end where the exponent starts
    have hx := h.exponent x hexponent
    have hstops : StopsDigits (x.text ++ rest) := by
      refine Text.stops_cons ?_
      rcases hx.marker with hmarker | hmarker <;> rw [hmarker] <;> decide
    obtain ⟨y, left, hscan, hleft⟩ := hx.exists_scan?_append rest
    refine ⟨{ n with exponent := some y }, left, ?_, hleft⟩
    rw [scan?, text, hexponent, Option.elim_some, List.append_assoc _ x.text,
      scanDigits?_text h hstops, Option.map_some]
    simp only [hscan]
  | none =>
    obtain ⟨digits, left, hdigits, hleft⟩ := h.exists_scanDigits?_append rest
    rw [scan?, text, hexponent, Option.elim_none, List.append_nil, hdigits, Option.map_some]
    cases hscan : Exponent.scan? left with
    | none => exact ⟨digits, left, by simp only [hscan], hleft⟩
    | some found =>
      -- an exponent follows, and is taken as well
      obtain ⟨y, after⟩ := found
      have hlt := length_lt_of_scanExponent? hscan
      exact ⟨{ digits with exponent := some y }, after, by simp only [hscan], by omega⟩

end Numeral

end Number

/-! ### The longest lexeme -/

namespace Lexeme

/-- A lexeme is the longest of those that a text starts with. -/
structure IsLongest (lexeme : Lexeme) (text rest : List Char) : Prop where
  isSpelled : lexeme.IsSpelled
  eq_append : text = lexeme.chars ++ rest
  longest : ∀ (other : Lexeme) (later : List Char), other.IsSpelled →
    text = other.chars ++ later → other.chars.length ≤ lexeme.chars.length

variable {text rest later : List Char} {lexeme other : Lexeme}

/-- Where a lexeme is written, one is scanned that leaves no more. -/
theorem IsSpelled.exists_scan?_append (h : lexeme.IsSpelled) (rest : List Char) :
    ∃ found left, scan? (lexeme.chars ++ rest) = some (found, left) ∧
      left.length ≤ rest.length := by
  cases h with
  | opening => exact ⟨.opening, rest, rfl, Nat.le_refl _⟩
  | closing => exact ⟨.closing, rest, rfl, Nat.le_refl _⟩
  | operator o => exact ⟨.operator o, rest, by cases o <;> rfl, Nat.le_refl _⟩
  | @name first tail hfirst htail =>
    refine ⟨.name (first :: (tail ++ rest).takeWhile continuesName),
      (tail ++ rest).dropWhile continuesName, ?_, Text.length_dropWhile_append_le htail rest⟩
    rw [chars, List.cons_append, scan?_cons_of_startsName hfirst]
  | @numeral n hliteral =>
    obtain ⟨m, left, hscan, hleft⟩ := hliteral.exists_scan?_append rest
    obtain ⟨c, tail, htext, hc⟩ := hliteral.exists_head
    refine ⟨.numeral m, left, ?_, hleft⟩
    rw [htext, List.cons_append] at hscan
    rw [chars, htext, List.cons_append, scan?_cons_of_isDigit_or hc, hscan, Option.map_some]

theorem IsSpelled.scan?_chars (h : lexeme.IsSpelled) :
    scan? lexeme.chars = some (lexeme, []) := by
  cases h with
  | opening => rfl
  | closing => rfl
  | operator o => cases o <;> rfl
  | @name first tail hfirst htail =>
    rw [chars, scan?_cons_of_startsName hfirst, List.takeWhile_eq_self_iff.2 htail,
      List.dropWhile_eq_nil_iff.2 htail]
  | @numeral n hliteral =>
    have hscan := scan?_numeral hliteral (Text.stops_nil _)
    rwa [List.append_nil] at hscan

/-- A lexeme is known by its spelling. -/
theorem IsSpelled.eq_of_chars_eq (h : lexeme.IsSpelled) (h' : other.IsSpelled)
    (hchars : lexeme.chars = other.chars) : lexeme = other := by
  have hscan := h.scan?_chars
  rw [hchars, h'.scan?_chars] at hscan
  exact (Prod.mk.inj (Option.some.inj hscan)).1.symm

theorem IsLongest.unique (h : lexeme.IsLongest text rest) (h' : other.IsLongest text later) :
    lexeme = other ∧ rest = later := by
  have hlength : lexeme.chars.length = other.chars.length :=
    Nat.le_antisymm (h'.longest lexeme rest h.isSpelled h.eq_append)
      (h.longest other later h'.isSpelled h'.eq_append)
  obtain ⟨hchars, hrest⟩ :=
    List.append_inj (h.eq_append.symm.trans h'.eq_append) hlength
  exact ⟨h.isSpelled.eq_of_chars_eq h'.isSpelled hchars, hrest⟩

theorem isLongest_of_scan? (hscan : scan? text = some (lexeme, rest)) :
    lexeme.IsLongest text rest := by
  obtain ⟨hspelled, htext⟩ := isSpelled_of_scan? hscan
  refine ⟨hspelled, htext, fun other later hother hlater => ?_⟩
  obtain ⟨found, left, hfound, hleft⟩ := hother.exists_scan?_append later
  rw [← hlater, hscan] at hfound
  obtain ⟨rfl, rfl⟩ := Prod.mk.inj (Option.some.inj hfound)
  -- what is cut off and what is left make up the text in both ways
  have hlength := congrArg List.length (htext.symm.trans hlater)
  rw [List.length_append, List.length_append] at hlength
  omega

/-- What is cut off a text is the longest lexeme that it starts with. -/
theorem scan?_eq_some_iff : scan? text = some (lexeme, rest) ↔ lexeme.IsLongest text rest := by
  refine ⟨isLongest_of_scan?, fun h => ?_⟩
  obtain ⟨found, left, hfound, -⟩ := h.isSpelled.exists_scan?_append rest
  rw [← h.eq_append] at hfound
  obtain ⟨rfl, rfl⟩ := h.unique (isLongest_of_scan? hfound)
  exact hfound

/-- Nothing is cut off a text that starts with no lexeme. -/
theorem scan?_eq_none_iff : scan? text = none ↔
    ∀ (lexeme : Lexeme) (rest : List Char), lexeme.IsSpelled → text ≠ lexeme.chars ++ rest := by
  constructor
  · rintro hnone lexeme rest hspelled rfl
    obtain ⟨found, left, hfound, -⟩ := hspelled.exists_scan?_append rest
    rw [hnone] at hfound
    cases hfound
  · intro h
    refine Option.eq_none_iff_forall_ne_some.2 fun ⟨lexeme, rest⟩ hscan => ?_
    obtain ⟨hspelled, htext⟩ := isSpelled_of_scan? hscan
    exact h lexeme rest hspelled htext

end Lexeme

/-! ### Again and again -/

/-- The longest lexemes are cut off a text one after another, each with the blanks before it; they
give tokens, and something is left. -/
inductive Cuts : (text : List Char) → List Token → (left : List Char) → Prop
  | nil (text : List Char) : Cuts text [] text
  | cons {blanks text rest left : List Char} {lexeme : Lexeme} {token : Token}
      {tokens : List Token} : (∀ c ∈ blanks, Text.isBlank c = true) →
      lexeme.IsLongest text rest → lexeme.token = .ok token → Cuts rest tokens left →
      Cuts (blanks ++ text) (token :: tokens) left

/-- No token can be cut off a text: it starts with no lexeme, and then everything up to the next
blank is to blame, or it starts with a numeral that is beyond the largest double. -/
inductive Fails : List Char → FormulaError → Prop
  | unrecognised {word rest : List Char} : word ≠ [] → (∀ c ∈ word, Text.isBlank c = false) →
      (∀ c, rest.head? = some c → Text.isBlank c = true) →
      (∀ (lexeme : Lexeme) (later : List Char), lexeme.IsSpelled →
        word ++ rest ≠ lexeme.chars ++ later) →
      Fails (word ++ rest) (.unrecognised (String.ofList word))
  | outOfRange {text rest : List Char} {n : Number.Numeral} :
      (Lexeme.numeral n).IsLongest text rest → Number.Binary64.infinity ≤ n.pattern →
      Fails text (.outOfRange (String.ofList n.text))

section Places

variable {text rest left : List Char} {tokens : List Token} {e : FormulaError}

theorem Lexeme.IsSpelled.exists_head {lexeme : Lexeme} (h : lexeme.IsSpelled) :
    ∃ c tail, lexeme.chars = c :: tail ∧ Text.isVisible c = true := by
  cases h with
  | opening => exact ⟨'(', [], rfl, by decide⟩
  | closing => exact ⟨')', [], rfl, by decide⟩
  | operator o => exact ⟨o.symbol, [], rfl, by cases o <;> decide⟩
  | @name first tail hfirst _ =>
    exact ⟨first, tail, rfl, isVisible_of_continuesName (continuesName_of_startsName hfirst)⟩
  | @numeral n hliteral =>
    obtain ⟨c, tail, htext, -⟩ := hliteral.exists_head
    refine ⟨c, tail, htext, hliteral.isVisible ?_⟩
    rw [htext]
    exact .head _

theorem Lexeme.IsLongest.stops {lexeme : Lexeme} (h : lexeme.IsLongest text rest) :
    Stops Text.isBlank text := by
  obtain ⟨c, tail, hchars, hc⟩ := h.isSpelled.exists_head
  rw [h.eq_append, hchars]
  exact Text.stops_cons (Text.isBlank_of_isVisible hc)

theorem Cuts.lexeme {lexeme : Lexeme} {token : Token} (hlongest : lexeme.IsLongest text rest)
    (htoken : lexeme.token = .ok token) (hrest : Cuts rest tokens left) :
    Cuts text (token :: tokens) left :=
  .cons (List.forall_mem_nil _) hlongest htoken hrest

theorem Cuts.scanAll_eq (h : Cuts text tokens left) :
    Token.scanAll text = Token.scanAll left >>= fun later => .ok (tokens ++ later) := by
  induction h with
  | nil text => cases Token.scanAll text <;> rfl
  | @cons _ _ _ left _ _ _ hblanks hlongest htoken _ ih =>
    rw [Token.scanAll_append_of_blank hblanks,
      Token.scanAll_eq_of_scan? hlongest.stops (Lexeme.scan?_eq_some_iff.2 hlongest), htoken, ih]
    cases Token.scanAll left <;> rfl

theorem scanAll_of_scan?_eq_none (hstart : Stops Text.isBlank text) (hne : text ≠ [])
    (hscan : Lexeme.scan? text = none) : Token.scanAll text =
      .error (.unrecognised (String.ofList (text.takeWhile (!Text.isBlank ·)))) := by
  rw [Token.scanAll, Text.trimStart_eq_self hstart, if_neg (by simpa using hne)]
  split
  · rfl
  · next hsome =>
    rw [hscan] at hsome
    cases hsome

/-- Where no token can be cut off, the cutting ends. -/
theorem Fails.scanAll_eq (h : Fails text e) : Token.scanAll text = .error e := by
  cases h with
  | @unrecognised word rest hne hword hrest hnone =>
    obtain ⟨c, tail, rfl⟩ := List.exists_cons_of_ne_nil hne
    have hstart : Stops Text.isBlank (c :: tail ++ rest) := Text.stops_cons (hword c (.head _))
    have htake : (c :: tail ++ rest).takeWhile (!Text.isBlank ·) = c :: tail :=
      Text.takeWhile_append_of_stops (fun d hd => by simp [hword d hd])
        (fun d hd => by simp [hrest d hd])
    rw [scanAll_of_scan?_eq_none hstart (by simp) (Lexeme.scan?_eq_none_iff.2 hnone), htake]
  | outOfRange hlongest hlarge =>
    rw [Token.scanAll_eq_of_scan? hlongest.stops (Lexeme.scan?_eq_some_iff.2 hlongest),
      Lexeme.token, if_neg (Nat.not_lt.2 hlarge)]
    rfl

theorem fails_of_scan?_eq_none (hstart : Stops Text.isBlank text) (hne : text ≠ [])
    (hscan : Lexeme.scan? text = none) :
    Fails text (.unrecognised (String.ofList (text.takeWhile (!Text.isBlank ·)))) := by
  have hsplit := (List.takeWhile_append_dropWhile (p := (!Text.isBlank ·)) (l := text)).symm
  have hword : ∀ c ∈ text.takeWhile (!Text.isBlank ·), Text.isBlank c = false := by
    intro c hc
    simpa using List.mem_takeWhile_imp hc
  have hrest : ∀ c, (text.dropWhile (!Text.isBlank ·)).head? = some c →
      Text.isBlank c = true := by
    intro c hc
    simpa using Text.stops_dropWhile (!Text.isBlank ·) text c hc
  have hne' : text.takeWhile (!Text.isBlank ·) ≠ [] := by
    obtain ⟨c, tail, rfl⟩ := List.exists_cons_of_ne_nil hne
    rw [List.takeWhile_cons_of_pos (by simp [hstart c rfl])]
    exact List.cons_ne_nil _ _
  have hnone := Lexeme.scan?_eq_none_iff.1 hscan
  generalize text.takeWhile (!Text.isBlank ·) = word at *
  generalize text.dropWhile (!Text.isBlank ·) = rest at *
  subst hsplit
  exact .unrecognised hne' hword hrest hnone

/-- A lexeme without a token is a numeral beyond the largest double. -/
theorem fails_of_token_eq_error {lexeme : Lexeme} (hlongest : lexeme.IsLongest text rest)
    (htoken : lexeme.token = .error e) : Fails text e := by
  cases lexeme with
  | numeral n =>
    rw [Lexeme.token] at htoken
    split at htoken
    · cases htoken
    · next hlarge =>
      obtain rfl := Except.error.inj htoken
      exact .outOfRange hlongest (Nat.not_lt.1 hlarge)
  | _ => cases htoken

end Places

namespace Token

/-- The tokens of a text are those that are cut off it until only blanks are left. -/
theorem scanAll_eq_ok_iff {text : List Char} {tokens : List Token} :
    scanAll text = .ok tokens ↔
      ∃ blanks, (∀ c ∈ blanks, Text.isBlank c = true) ∧ Cuts text tokens blanks := by
  constructor
  · intro h
    fun_induction scanAll text generalizing tokens with
    | case1 text hempty =>
      obtain rfl := Except.ok.inj h
      rw [List.isEmpty_iff, Text.trimStart, List.dropWhile_eq_nil_iff] at hempty
      exact ⟨text, hempty, .nil text⟩
    | case2 => cases h
    | case3 text _ lexeme rest hscan ih =>
      obtain ⟨token, htoken, h⟩ := bind_eq_ok_iff.1 h
      obtain ⟨later, hlater, h⟩ := bind_eq_ok_iff.1 h
      obtain rfl := Except.ok.inj h
      obtain ⟨before, hbefore, htext⟩ := Text.exists_append_trimStart text
      obtain ⟨blanks, hblanks, hcuts⟩ := ih hlater
      refine ⟨blanks, hblanks, ?_⟩
      rw [htext]
      exact .cons hbefore (Lexeme.isLongest_of_scan? hscan) htoken hcuts
  · rintro ⟨blanks, hblanks, hcuts⟩
    rw [hcuts.scanAll_eq, scanAll_of_blank hblanks]
    show Except.ok (tokens ++ []) = .ok tokens
    rw [List.append_nil]

/-- What is wrong with a text is what ends the cutting. -/
theorem scanAll_eq_error_iff {text : List Char} {e : FormulaError} :
    scanAll text = .error e ↔ ∃ tokens blanks rest, (∀ c ∈ blanks, Text.isBlank c = true) ∧
      Cuts text tokens (blanks ++ rest) ∧ Fails rest e := by
  constructor
  · intro h
    fun_induction scanAll text with
    | case1 => cases h
    | case2 text hempty hscan =>
      obtain rfl := Except.error.inj h
      obtain ⟨before, hbefore, htext⟩ := Text.exists_append_trimStart text
      refine ⟨[], before, Text.trimStart text, hbefore, ?_, ?_⟩
      · rw [← htext]
        exact .nil text
      · exact fails_of_scan?_eq_none (Text.stops_dropWhile Text.isBlank text)
          (by simpa using hempty) hscan
    | case3 text _ lexeme rest hscan ih =>
      have hlongest := Lexeme.isLongest_of_scan? hscan
      obtain ⟨before, hbefore, htext⟩ := Text.exists_append_trimStart text
      -- the lexeme has no token, or it has one and something later fails
      rcases bind_eq_error_iff.1 h with htoken | ⟨token, htoken, h⟩
      · refine ⟨[], before, Text.trimStart text, hbefore, ?_, ?_⟩
        · rw [← htext]
          exact .nil text
        · exact fails_of_token_eq_error hlongest htoken
      · rcases bind_eq_error_iff.1 h with hrest | ⟨later, -, h⟩
        · obtain ⟨tokens, blanks, left, hblanks, hcuts, hfails⟩ := ih hrest
          refine ⟨token :: tokens, blanks, left, hblanks, ?_, hfails⟩
          rw [htext]
          exact .cons hbefore hlongest htoken hcuts
        · cases h
  · rintro ⟨tokens, blanks, rest, hblanks, hcuts, hfails⟩
    rw [hcuts.scanAll_eq, scanAll_append_of_blank hblanks, hfails.scanAll_eq]
    rfl

end Token

end FormulaSheet
