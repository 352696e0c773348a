/-
The canonical text of a formula.

Tokens are written without separators, and each of them is spelled by its own text, so cutting
the text of a formula finds its tokens again.

* **`splits_chars`** — the texts of tokens, one after another, split into these tokens;
* **`Formula.parse_chars`** — a formula is parsed from its canonical text, if normalizing a name
  twice is the same as doing it once;
* **`Formula.isVisible_chars`** — and its canonical text has no blanks.
-/
import FormulaSheet.Proofs.Formula.Spelling

namespace FormulaSheet

/-! ### Tokens and their own text -/

namespace Token

/-- A token that a formula can hold: its number is read from a numeral, its variable is a name. -/
def IsPlain : Token → Prop
  | number x => ∃ p < Number.Binary64.infinity, x = Number.ofMagnitude false p
  | var name => isVariableName name = true
  | opening | closing | operator _ => True

theorem chars_number {p : Nat} (hp : p < Number.Binary64.infinity) :
    (number (Number.ofMagnitude false p)).chars = (Number.magnitudeNumeral p).text := by
  rw [chars, Number.canonicalChars, Number.magnitude_ofMagnitude hp,
    Number.isNegative_ofMagnitude hp, Number.text_magnitudeNumeral hp]
  simp [Nat.not_lt.2 (Nat.le_of_lt hp)]

/-- A token that a formula can hold is spelled by its own text. -/
theorem spells_chars {token : Token} (hplain : token.IsPlain) : Spells token.chars token := by
  cases token with
  | opening => exact .opening
  | closing => exact .closing
  | operator o => exact .operator o
  | var name => exact .var hplain
  | number x =>
    obtain ⟨p, hp, rfl⟩ := hplain
    -- the text of a double is a numeral of its magnitude, which is read back
    have hliteral := (Number.isSpelled_magnitudeNumeral p).isLiteral
    have hpattern := Number.pattern_magnitudeNumeral hp
    have hspells := Spells.number hliteral (by rwa [hpattern])
    rwa [hpattern, ← chars_number hp] at hspells

end Token

theorem Spells.isPlain {text : List Char} {token : Token} (h : Spells text token) :
    token.IsPlain := by
  cases h with
  | var hname => exact hname
  | number _ hfinite => exact ⟨_, hfinite, rfl⟩
  | _ => trivial

theorem Splits.isPlain {text : List Char} {tokens : List Token} (h : Splits text tokens) :
    ∀ t ∈ tokens, t.IsPlain := by
  induction h with
  | blank _ => simp
  | token _ hspells _ ih => exact List.forall_mem_cons.2 ⟨hspells.isPlain, ih⟩

/-- Tokens that a formula can hold split the text that is made of theirs. -/
theorem splits_chars {tokens : List Token} (hplain : ∀ t ∈ tokens, t.IsPlain) :
    Splits (tokens.flatMap Token.chars) tokens := by
  induction tokens with
  | nil => exact .blank (by simp)
  | cons token rest ih =>
    obtain ⟨htoken, hrest⟩ := List.forall_mem_cons.1 hplain
    show Splits ([] ++ token.chars ++ rest.flatMap Token.chars) (token :: rest)
    exact .token (by simp) (Token.spells_chars htoken) (ih hrest)

/-! ### Parsing again -/

namespace Formula

variable {rules : NameRules} {text : List Char} {f : Formula}

/-- The tokens of a formula fit, and each of them is one that a formula can hold.  Its variables
are accepted normal forms. -/
structure IsCanonical (rules : NameRules) (f : Formula) : Prop where
  fits : Fits true 0 f.tokens
  plain : ∀ t ∈ f.tokens, t.IsPlain
  names : ∀ name, .var name ∈ f.tokens → rules.accepts name = true ∧
    rules.normalize name = name

/-- Whatever is parsed fits, and is made of tokens that a formula can hold. -/
theorem fits_of_parse (h : parse rules text = .ok f) :
    Fits true 0 f.tokens ∧ ∀ t ∈ f.tokens, t.IsPlain := by
  obtain ⟨tokens, hscan, hfits, hnames, rfl⟩ := parse_eq_ok_iff.1 h
  refine ⟨hfits.map_normalize rules, fun t ht => ?_⟩
  obtain ⟨token, htoken, rfl⟩ := List.mem_map.1 ht
  have hplain := (Splits.of_scanAll hscan).isPlain token htoken
  cases token with
  | var spelling =>
    -- a name need not be as it was scanned, but it was accepted
    have haccepts := hnames spelling (Token.mem_names_iff.2 htoken)
    rw [NameRules.accepts, Bool.and_eq_true] at haccepts
    exact haccepts.1
  | _ => exact hplain

theorem isCanonical_of_parse (hidem : ∀ s, rules.normalize (rules.normalize s) = rules.normalize s)
    (h : parse rules text = .ok f) : f.IsCanonical rules := by
  obtain ⟨hfits, hplain⟩ := fits_of_parse h
  refine ⟨hfits, hplain, fun name hname => ?_⟩
  obtain ⟨tokens, -, -, hnames, rfl⟩ := parse_eq_ok_iff.1 h
  rw [← Token.mem_names_iff, Token.names_map_normalize, List.mem_map] at hname
  obtain ⟨spelling, hspelling, rfl⟩ := hname
  exact ⟨hnames spelling hspelling, hidem spelling⟩

theorem map_normalize (h : f.IsCanonical rules) :
    f.tokens.map (Token.normalize rules) = f.tokens := by
  refine (List.map_congr_left fun t ht => ?_).trans (List.map_id _)
  cases t with
  | var name => rw [Token.normalize, (h.names name ht).2, id]
  | _ => rfl

/-- A formula is parsed from its canonical text. -/
theorem parse_chars (h : f.IsCanonical rules) : parse rules f.chars = .ok f := by
  refine parse_eq_ok_iff.2
    ⟨f.tokens, (splits_chars h.plain).scanAll_of_fits h.fits, h.fits, fun name hname => ?_, ?_⟩
  · obtain ⟨haccepts, hnormal⟩ := h.names name (Token.mem_names_iff.1 hname)
    rw [hnormal]
    exact haccepts
  · rw [map_normalize h]

theorem isVisible_chars (hplain : ∀ t ∈ f.tokens, t.IsPlain) {c : Char} (hc : c ∈ f.chars) :
    Text.isVisible c = true := by
  obtain ⟨token, htoken, hc⟩ := List.mem_flatMap.1 hc
  exact (Token.spells_chars (hplain token htoken)).isVisible hc

/-- Tokens that a formula can hold equal themselves, as doubles do. -/
theorem beq_self {tokens : List Token} (h : ∀ t ∈ tokens, t.IsPlain) :
    (tokens == tokens) = true := by
  induction tokens with
  | nil => rfl
  | cons token rest ih =>
    rw [List.cons_beq_cons, ih fun t ht => h t (.tail _ ht), Bool.and_true]
    cases token with
    | number x =>
      obtain ⟨p, hp, rfl⟩ := h _ (.head _)
      -- of all tokens only a number could differ from itself, and it is finite
      exact Number.beq_self_of_isFinite (Number.isFinite_ofMagnitude hp)
    | operator o => cases o <;> rfl
    | var name => exact beq_self_eq_true name
    | _ => rfl

end Formula

end FormulaSheet
