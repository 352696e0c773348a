/-
Equality of formulas.

Two formulas are compared token by token, and number tokens are compared as doubles are.  No
formula holds a negative zero or what is no number, so formulas that are equal are the same; and
since the canonical text of a formula is parsed as that formula, whatever rules for names it was
parsed by, equality of formulas is equality of their canonical texts.

* **`Formula.isCanonical_default_of_parse`** — what is parsed by any rules obeys the rules that
  leave names as they are;
* **`Formula.beq_iff_eq_of_parse`** — parsed formulas are equal exactly if they are the same;
* **`Formula.parse_text`** — a formula is parsed from its canonical text, and is equal to another
  exactly if their canonical texts are.
-/
import FormulaSheet.Proofs.Formula.Canonical

namespace FormulaSheet

namespace Token

/-- Tokens that a formula can hold are the same if they are equal. -/
theorem IsPlain.eq_of_beq {t u : Token} (ht : t.IsPlain) (hu : u.IsPlain) (h : (t == u) = true) :
    t = u := by
  match t, u with
  | .opening, .opening => rfl
  | .closing, .closing => rfl
  | .operator o, .operator o' =>
    have heq : (o == o') = true := h
    rw [LawfulBEq.eq_of_beq heq]
  | .var name, .var name' =>
    have heq : (name == name') = true := h
    rw [LawfulBEq.eq_of_beq heq]
  | .number x, .number y =>
    obtain ⟨p, hp, rfl⟩ := ht
    obtain ⟨q, hq, rfl⟩ := hu
    rcases Number.eq_or_magnitude_eq_zero_of_beq (Number.isFinite_ofMagnitude hp)
      (Number.isFinite_ofMagnitude hq) h with hsame | ⟨hzero, hzero'⟩
    · rw [hsame]
    · -- there is one zero that has no sign
      rw [Number.magnitude_ofMagnitude hp] at hzero
      rw [Number.magnitude_ofMagnitude hq] at hzero'
      rw [hzero, hzero']

theorem eq_of_beq_of_forall_isPlain {tokens tokens' : List Token} (h : ∀ t ∈ tokens, t.IsPlain)
    (h' : ∀ t ∈ tokens', t.IsPlain) (hbeq : (tokens == tokens') = true) : tokens = tokens' := by
  induction tokens generalizing tokens' with
  | nil =>
    cases tokens' with
    | nil => rfl
    | cons u rest' => cases hbeq
  | cons t rest ih =>
    cases tokens' with
    | nil => cases hbeq
    | cons u rest' =>
      obtain ⟨ht, hrest⟩ := List.forall_mem_cons.1 h
      obtain ⟨hu, hrest'⟩ := List.forall_mem_cons.1 h'
      rw [List.cons_beq_cons, Bool.and_eq_true] at hbeq
      rw [ht.eq_of_beq hu hbeq.1, ih hrest hrest' hbeq.2]

end Token

namespace Formula

variable {rules rules' : NameRules} {raw raw' : List Char} {f g : Formula}

/-- A formula that is parsed by any rules obeys the rules that leave names as they are. -/
theorem isCanonical_default_of_parse (h : parse rules raw = .ok f) : f.IsCanonical {} := by
  obtain ⟨hfits, hplain⟩ := fits_of_parse h
  refine ⟨hfits, hplain, fun name hname => ⟨?_, rfl⟩⟩
  have hvariable : isVariableName name = true := hplain _ hname
  rw [NameRules.accepts, hvariable, Bool.true_and]

theorem parse_default_text (h : parse rules raw = .ok f) : parse {} f.text.toList = .ok f := by
  rw [text, String.toList_ofList]
  exact parse_chars (isCanonical_default_of_parse h)

/-- Parsed formulas are equal exactly if they are the same. -/
theorem beq_iff_eq_of_parse (hf : parse rules raw = .ok f) (hg : parse rules' raw' = .ok g) :
    (f == g) = true ↔ f = g := by
  obtain ⟨-, hplain⟩ := fits_of_parse hf
  obtain ⟨-, hplain'⟩ := fits_of_parse hg
  constructor
  · intro h
    exact congrArg Formula.mk (Token.eq_of_beq_of_forall_isPlain hplain hplain' h)
  · rintro rfl
    show (f.tokens == f.tokens) = true
    exact beq_self hplain

/-- The canonical text of a formula is a faithful form of it: it is parsed as that formula, with
the same tokens and so the same names mentioned and the same canonical text.  Hence formulas, by
whatever rules they were parsed, are equal exactly if their canonical texts are, and then they have
the same hash. -/
theorem parse_text (hf : parse rules raw = .ok f) :
    (∃ f', parse {} f.text.toList = .ok f' ∧ f'.tokens = f.tokens ∧ f'.mentions = f.mentions ∧
      f'.text = f.text) ∧
    ∀ {rules' : NameRules} {raw' : List Char} {g : Formula}, parse rules' raw' = .ok g →
      ((f == g) = true ↔ f.text = g.text) ∧ ((f == g) = true → hash f = hash g) := by
  refine ⟨⟨f, parse_default_text hf, rfl, rfl, rfl⟩, fun {rules' raw' g} hg => ?_⟩
  rw [beq_iff_eq_of_parse hf hg]
  refine ⟨⟨fun h => by rw [h], fun h => ?_⟩, fun h => by rw [h]⟩
  -- both are parsed from the one text
  have hparse := parse_default_text hf
  rw [h, parse_default_text hg] at hparse
  exact (Except.ok.inj hparse).symm

/-- Numerals with exponents beside names that start as an exponent does, in two spellings. -/
theorem parse_text_glued :
    ∃ f g, parse ⟨fun name => name.map Char.toLower, fun _ => true⟩
        "2E3+E3-(.5E1*e1E1) / 07.".toList = .ok f ∧
      parse {} "2000.0+e3-(5*e1e1)/7e0".toList = .ok g ∧
      f.text = "2000+e3-(5*e1e1)/7" ∧ (f == g) = true ∧ hash f = hash g ∧
      ∃ f', parse {} f.text.toList = .ok f' ∧ f'.tokens = f.tokens ∧ f'.mentions = f.mentions ∧
        f'.text = f.text := by
  have hparsed : ∀ {parsed : Except FormulaError Formula} {s : String},
      parsed.toOption.map Formula.text = some s → ∃ f, parsed = .ok f ∧ f.text = s := by
    intro parsed s h
    cases parsed with
    | error e => cases h
    | ok f => exact ⟨f, rfl, Option.some.inj h⟩
  obtain ⟨f, hf, htext⟩ : ∃ f, parse ⟨fun name => name.map Char.toLower, fun _ => true⟩
      "2E3+E3-(.5E1*e1E1) / 07.".toList = .ok f ∧ f.text = "2000+e3-(5*e1e1)/7" :=
    hparsed (by decide +kernel)
  obtain ⟨g, hg, htext'⟩ : ∃ g, parse {} "2000.0+e3-(5*e1e1)/7e0".toList = .ok g ∧
      g.text = "2000+e3-(5*e1e1)/7" :=
    hparsed (by decide +kernel)
  obtain ⟨hback, hequal⟩ := parse_text hf
  obtain ⟨hiff, hhash⟩ := hequal hg
  have hfg : (f == g) = true := hiff.2 (htext.trans htext'.symm)
  exact ⟨f, g, hf, hg, htext, hfg, hhash hfg, hback⟩

end Formula

end FormulaSheet
