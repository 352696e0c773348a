/-
Literals of equal value.

A literal is read as the double that its number rounds to, so all literals of one number are one
token, whatever zeros they have, wherever their point stands and whatever exponent makes up for it.
A token of a formula may be spelled as another literal of its number: what stands around it splits
as before, and of all the ways to split a text at most one fits.

* **`Lexeme.IsWhole`** — a lexeme is a token of the text in which it stands, and not a part of one;
* **`Formula.parse_respelled`** — literals that are read as one double may stand for each other;
* **`Formula.parse_literals`** — so may literals of equal value; a literal that stands alone is the
  double that its value rounds to, and is out of range exactly if that is infinity.
-/
import FormulaSheet.Proofs.Formula.Cutting
import FormulaSheet.Proofs.Formula.Equality
import FormulaSheet.Proofs.Formula.Spacing
import FormulaSheet.Proofs.Number.Rounding

namespace FormulaSheet

open Number (RoundsTo)

/-- A lexeme is a whole token of the text in which it stands between these: cutting this text, one
comes to the place where it starts, and it is cut off there. -/
structure Lexeme.IsWhole (lexeme : Lexeme) (before after : List Char) : Prop where
  isLongest : lexeme.IsLongest (lexeme.chars ++ after) after
  cuts : ∃ tokens blanks, (∀ c ∈ blanks, Text.isBlank c = true) ∧
    Cuts (before ++ lexeme.chars ++ after) tokens (blanks ++ (lexeme.chars ++ after))

/-- What has been cut off a text splits into its tokens, whatever stands behind it. -/
theorem Cuts.exists_splits {text left : List Char} {tokens : List Token}
    (h : Cuts text tokens left) : ∃ removed, text = removed ++ left ∧
      ∀ rest later, Splits rest later → Splits (removed ++ rest) (tokens ++ later) := by
  induction h with
  | nil text => exact ⟨[], rfl, fun rest later h => h⟩
  | @cons blanks text rest left lexeme token tokens hblanks hlongest htoken _ ih =>
    obtain ⟨removed, hrest, hsplits⟩ := ih
    refine ⟨blanks ++ lexeme.chars ++ removed, ?_, fun other later hother => ?_⟩
    · rw [hlongest.eq_append, hrest]
      simp only [List.append_assoc]
    · have h := Splits.token hblanks (hlongest.isSpelled.spells htoken) (hsplits other later hother)
      rwa [← List.append_assoc] at h

namespace Lexeme

variable {lexeme : Lexeme} {token : Token} {before after : List Char}

/-- A text splits into the same tokens where one of them is spelled in another way. -/
theorem IsWhole.exists_splits (h : lexeme.IsWhole before after) {tokens : List Token}
    (hscan : Token.scanAll (before ++ lexeme.chars ++ after) = .ok tokens) :
    ∃ token, lexeme.token = .ok token ∧
      ∀ spelling, Spells spelling token → Splits (before ++ spelling ++ after) tokens := by
  obtain ⟨earlier, blanks, hblanks, hcuts⟩ := h.cuts
  -- the tokens before the lexeme, its own, and those behind it
  rw [hcuts.scanAll_eq, Token.scanAll_append_of_blank hblanks,
    Token.scanAll_eq_of_scan? h.isLongest.stops (scan?_eq_some_iff.2 h.isLongest)] at hscan
  obtain ⟨found, hfound, htokens⟩ := bind_eq_ok_iff.1 hscan
  obtain ⟨token, htoken, hfound⟩ := bind_eq_ok_iff.1 hfound
  obtain ⟨later, hlater, hfound⟩ := bind_eq_ok_iff.1 hfound
  obtain rfl := Except.ok.inj hfound
  obtain rfl := Except.ok.inj htokens
  refine ⟨token, htoken, fun spelling hspelling => ?_⟩
  obtain ⟨removed, htext, hsplits⟩ := hcuts.exists_splits
  have hbefore : before = removed ++ blanks := by
    rw [List.append_assoc, ← List.append_assoc removed] at htext
    exact List.append_cancel_right htext
  have hrest := hsplits _ _ (Splits.token hblanks hspelling (.of_scanAll hlater))
  rwa [← List.append_assoc, ← List.append_assoc, ← hbefore] at hrest

theorem token_numeral_eq_ok_iff {n : Number.Numeral} : (numeral n).token = .ok token ↔
    n.pattern < Number.Binary64.infinity ∧
      token = .number (Number.ofMagnitude false n.pattern) := by
  rw [Lexeme.token]
  split
  · next hfinite => exact ⟨fun h => ⟨hfinite, (Except.ok.inj h).symm⟩, fun h => by rw [h.2]⟩
  · next hlarge =>
    constructor
    · intro h
      cases h
    · intro h
      exact absurd h.1 hlarge

end Lexeme

namespace Formula

variable {rules : NameRules} {before after : List Char} {f : Formula} {n m : Number.Numeral}

/-- A literal in a formula may be spelled as any other that is read as the same double. -/
theorem parse_respelled (hwhole : (Lexeme.numeral n).IsWhole before after) (hm : m.IsLiteral)
    (hpattern : n.pattern = m.pattern) (h : parse rules (before ++ n.text ++ after) = .ok f) :
    parse rules (before ++ m.text ++ after) = .ok f := by
  obtain ⟨tokens, hscan, -, -, -⟩ := parse_eq_ok_iff.1 h
  obtain ⟨token, htoken, hsplits⟩ := hwhole.exists_splits hscan
  obtain ⟨hfinite, rfl⟩ := Lexeme.token_numeral_eq_ok_iff.1 htoken
  rw [hpattern] at hfinite hsplits
  exact parse_of_splits h hscan (hsplits _ (.number hm hfinite))

section Alone

variable {blanks blanks' : List Char}

theorem parse_literal (hn : n.IsLiteral) (hblanks : ∀ c ∈ blanks, Text.isBlank c = true)
    (hblanks' : ∀ c ∈ blanks', Text.isBlank c = true)
    (hfinite : n.pattern < Number.Binary64.infinity) :
    parse rules (blanks ++ n.text ++ blanks') =
      .ok ⟨[.number (Number.ofMagnitude false n.pattern)]⟩ := by
  have hfits : Fits true 0 [.number (Number.ofMagnitude false n.pattern)] := .number _ .done
  have hsplits : Splits (blanks ++ n.text ++ blanks') _ :=
    .token hblanks (.number hn hfinite) (.blank hblanks')
  exact parse_eq_ok_iff.2 ⟨_, hsplits.scanAll_of_fits hfits, hfits, nofun, rfl⟩

theorem parse_literal_of_infinite (hn : n.IsLiteral)
    (hblanks : ∀ c ∈ blanks, Text.isBlank c = true)
    (hblanks' : ∀ c ∈ blanks', Text.isBlank c = true)
    (hinfinite : Number.Binary64.infinity ≤ n.pattern) :
    parse rules (blanks ++ n.text ++ blanks') = .error (.outOfRange (String.ofList n.text)) := by
  have hstops : Text.Stops Number.continuesNumeral blanks' :=
    (Fits.done.stops (.blank hblanks')).mono fun c hc => continuesNumeral_of_continuesOperand hc
  have hlongest : (Lexeme.numeral n).IsLongest (n.text ++ blanks') blanks' :=
    Lexeme.isLongest_of_scan? (Lexeme.scan?_numeral hn hstops)
  rw [parse, List.append_assoc, Token.scanAll_append_of_blank hblanks,
    (Fails.outOfRange hlongest hinfinite).scanAll_eq]
  rfl

end Alone

/-- Literals of equal value are interchangeable.  In a formula a literal that is a whole token of
its text may be spelled as any other literal that denotes the same number: the text is accepted, as
an equal formula with the same canonical text.  A literal that stands alone, with blanks or without,
is out of range exactly if its value rounds to infinity, which it does from half way between the
largest double and the next power of two; otherwise it is the double that its value rounds to.  So a
literal that is too small for a positive double, up to half of the smallest one, is `0`. -/
theorem parse_literals :
    (∀ {rules : NameRules} {before after : List Char} {n m : Number.Numeral} {f : Formula},
      (Lexeme.numeral n).IsWhole before after → m.IsLiteral → n.value = m.value →
      parse rules (before ++ n.text ++ after) = .ok f →
      ∃ g, parse rules (before ++ m.text ++ after) = .ok g ∧ (g == f) = true ∧ g.text = f.text) ∧
    ∀ (rules : NameRules) {blanks blanks' : List Char} {n : Number.Numeral}, n.IsLiteral →
      (∀ c ∈ blanks, Text.isBlank c = true) → (∀ c ∈ blanks', Text.isBlank c = true) →
      (parse rules (blanks ++ n.text ++ blanks') = .error (.outOfRange (String.ofList n.text)) ↔
        RoundsTo n.value Number.Binary64.infinity) ∧
      (RoundsTo n.value Number.Binary64.infinity ↔ 2 ^ 1024 - 2 ^ 970 ≤ n.value) ∧
      (∀ p < Number.Binary64.infinity, RoundsTo n.value p →
        parse rules (blanks ++ n.text ++ blanks') =
          .ok ⟨[.number (Number.ofMagnitude false p)]⟩) ∧
      (n.value ≤ 1 / 2 ^ 1075 → parse rules (blanks ++ n.text ++ blanks') = .ok ⟨[.number 0]⟩) := by
  refine ⟨?_, ?_⟩
  · intro rules before after n m f hwhole hm hvalue h
    have hg := parse_respelled hwhole hm (Number.Numeral.pattern_congr hvalue) h
    exact ⟨f, hg, (beq_iff_eq_of_parse hg h).2 rfl, rfl⟩
  · intro rules blanks blanks' n hn hblanks hblanks'
    have hrounds := n.roundsTo_pattern
    have hfinite : ∀ p < Number.Binary64.infinity, RoundsTo n.value p →
        parse rules (blanks ++ n.text ++ blanks') =
          .ok ⟨[.number (Number.ofMagnitude false p)]⟩ := by
      intro p hp hroundsTo
      -- the literal is read as what its value rounds to, and that is one double
      obtain rfl := hroundsTo.unique hrounds
      exact parse_literal hn hblanks hblanks' hp
    refine ⟨⟨fun h => ?_, fun h => ?_⟩, Number.roundsTo_infinity_iff, hfinite, fun h => ?_⟩
    · -- a finite double would have been accepted
      rcases Nat.lt_or_ge n.pattern Number.Binary64.infinity with hlt | hge
      · rw [hfinite _ hlt hrounds] at h
        cases h
      · rwa [Nat.le_antisymm hrounds.le_infinity hge] at hrounds
    · exact parse_literal_of_infinite hn hblanks hblanks' (h.unique hrounds).le
    · have hzero : Number.ofMagnitude false 0 = 0 := by decide +kernel
      rw [← hzero]
      exact hfinite 0 (by decide +kernel) (Number.roundsTo_zero_iff.2 h)

/-- A factor with an exponent between two operators, spelled without it; a literal that is too
large, after a blank, and one that is too small, before one. -/
theorem parse_literals_exponent :
    (∃ f g, parse {} "x*2.50e1-1".toList = .ok f ∧ parse {} "x*25-1".toList = .ok g ∧
      (g == f) = true ∧ g.text = f.text) ∧
    parse {} " 1e309".toList = .error (.outOfRange "1e309") ∧
    parse {} "2e-324\n".toList = .ok ⟨[.number 0]⟩ := by
  have hliteral : ∀ {n : Number.Numeral}, Number.Numeral.scan? n.text = some (n, []) →
      n.IsLiteral := fun h => (Number.Numeral.isLiteral_of_scan? h).1
  obtain ⟨hreplace, halone⟩ := parse_literals
  refine ⟨?_, ?_, ?_⟩
  · have hn : Number.Numeral.IsLiteral ⟨['2'], some ['5', '0'], some ⟨'e', none, ['1']⟩⟩ :=
      hliteral (by decide +kernel)
    have hm : Number.Numeral.IsLiteral ⟨['2', '5'], none, none⟩ := hliteral (by decide +kernel)
    have hwhole : (Lexeme.numeral ⟨['2'], some ['5', '0'], some ⟨'e', none, ['1']⟩⟩).IsWhole
        ['x', '*'] ['-', '1'] := by
      have hx : (Lexeme.name ['x']).IsLongest "x*2.50e1-1".toList "*2.50e1-1".toList :=
        Lexeme.isLongest_of_scan? rfl
      have hmul : (Lexeme.operator .mul).IsLongest "*2.50e1-1".toList "2.50e1-1".toList :=
        Lexeme.isLongest_of_scan? rfl
      refine ⟨Lexeme.isLongest_of_scan? (Lexeme.scan?_numeral hn (Text.stops_cons (by decide))),
        [.var "x", .operator .mul], [], List.forall_mem_nil _, ?_⟩
      exact .lexeme hx rfl (.lexeme hmul rfl (.nil _))
    have hvalue : Number.Numeral.value ⟨['2'], some ['5', '0'], some ⟨'e', none, ['1']⟩⟩ =
        Number.Numeral.value ⟨['2', '5'], none, none⟩ := by
      -- `2.50e1` is 250 tenths
      rw [Number.Numeral.value_eq, Number.Numeral.value_eq]
      show ((250 : Nat) : ℚ) * 10 ^ (-1 : Int) = ((25 : Nat) : ℚ) * 10 ^ (0 : Int)
      norm_num
    obtain ⟨f, hf⟩ : ∃ f, parse {} "x*2.50e1-1".toList = .ok f := by
      have hsome : (parse {} "x*2.50e1-1".toList).toOption.isSome = true := by decide +kernel
      cases h : parse {} "x*2.50e1-1".toList with
      | error e =>
        rw [h] at hsome
        cases hsome
      | ok f => exact ⟨f, rfl⟩
    obtain ⟨g, hg, hequal, htext⟩ := hreplace hwhole hm hvalue hf
    exact ⟨f, g, hf, hg, hequal, htext⟩
  · have hn : Number.Numeral.IsLiteral ⟨['1'], none, some ⟨'e', none, ['3', '0', '9']⟩⟩ :=
      hliteral (by decide +kernel)
    have hrounds := Number.Numeral.roundsTo_pattern ⟨['1'], none, some ⟨'e', none, ['3', '0', '9']⟩⟩
    rw [show Number.Numeral.pattern _ = Number.Binary64.infinity by decide +kernel] at hrounds
    have hblank : ∀ c ∈ [' '], Text.isBlank c = true := List.all_eq_true.1 rfl
    obtain ⟨hlarge, -, -, -⟩ := halone {} hn hblank (List.forall_mem_nil _)
    exact hlarge.2 hrounds
  · have hn : Number.Numeral.IsLiteral ⟨['2'], none, some ⟨'e', some '-', ['3', '2', '4']⟩⟩ :=
      hliteral (by decide +kernel)
    have hrounds :=
      Number.Numeral.roundsTo_pattern ⟨['2'], none, some ⟨'e', some '-', ['3', '2', '4']⟩⟩
    rw [show Number.Numeral.pattern _ = 0 by decide +kernel] at hrounds
    have hblank : ∀ c ∈ ['\n'], Text.isBlank c = true := List.all_eq_true.1 rfl
    obtain ⟨-, -, -, hsmall⟩ := halone {} hn (List.forall_mem_nil _) hblank
    exact hsmall (Number.roundsTo_zero_iff.1 hrounds)

end Formula

end FormulaSheet
