/-
Which texts are formulas.

A text is a formula exactly if it can be split into the tokens of an expression whose variables
are accepted.  How it is split needs no mention: of all the ways to split a text at most one gives
an expression, and it is the one that cutting the text from the left finds.

* **`Formula.parse_eq_ok_iff_splits`** — what a text is as a formula, by the grammar of tokens and
  the grammar of expressions;
* **`Formula.pairwise_mentions`** — the names that a formula mentions are in order of first
  occurrence;
* **`Formula.exists_parse_iff`** — a text is accepted exactly if both grammars and the rules for
  names allow it, and then the formula has its tokens and mentions their names.
-/
import FormulaSheet.Proofs.Formula.Spelling

namespace FormulaSheet.Formula

variable {rules : NameRules} {text : List Char} {f : Formula}

/-- What a text is as a formula: the normal forms of tokens that it splits into, if they are an
expression and its variables are accepted. -/
theorem parse_eq_ok_iff_splits :
    parse rules text = .ok f ↔
      ∃ tokens, Splits text tokens ∧ (∃ e, IsSum tokens e) ∧
        (∀ name, .var name ∈ tokens → rules.accepts (rules.normalize name) = true) ∧
        f = ⟨tokens.map (Token.normalize rules)⟩ := by
  rw [parse_eq_ok_iff]
  simp only [Token.mem_names_iff]
  constructor
  · rintro ⟨tokens, hscan, hfits, hnames, rfl⟩
    exact ⟨tokens, .of_scanAll hscan, exists_isSum_iff.2 hfits, hnames, rfl⟩
  · rintro ⟨tokens, hsplits, hsum, hnames, rfl⟩
    have hfits := exists_isSum_iff.1 hsum
    exact ⟨tokens, hsplits.scanAll_of_fits hfits, hfits, hnames, rfl⟩

/-! ### The names that a formula mentions -/

/-- Each name keeps the place of its first occurrence. -/
theorem pairwise_eraseDups (names : List String) :
    names.eraseDups.Pairwise fun a b => names.idxOf a < names.idxOf b := by
  induction names using List.reverseRecOn with
  | nil => exact .nil
  | append_singleton names name ih =>
    -- a name at the end is listed if it has not occurred, and moves no other
    rw [List.eraseDups_append, List.pairwise_append]
    refine ⟨ih.imp_of_mem fun ha hb hlt => ?_, ?_, fun a ha b hb => ?_⟩
    · rwa [List.idxOf_append_of_mem (List.mem_eraseDups.1 ha),
        List.idxOf_append_of_mem (List.mem_eraseDups.1 hb)]
    · by_cases hmem : name ∈ names <;> simp [List.removeAll, List.eraseDups_cons, hmem]
    · -- a name that is listed after all others has not occurred before the last place
      obtain ⟨hb, hnew⟩ : b = name ∧ name ∉ names := by
        by_cases hmem : name ∈ names <;> simp_all [List.removeAll]
      have ha' := List.mem_eraseDups.1 ha
      rw [List.idxOf_append_of_mem ha', List.idxOf_append_of_notMem (hb ▸ hnew)]
      have := List.idxOf_lt_length_iff.2 ha'
      omega

/-- The names that a formula mentions are in order of first occurrence. -/
theorem pairwise_mentions (f : Formula) :
    f.mentions.Pairwise fun a b =>
      (Token.names f.tokens).idxOf a < (Token.names f.tokens).idxOf b :=
  pairwise_eraseDups (Token.names f.tokens)

theorem nodup_mentions (f : Formula) : f.mentions.Nodup :=
  f.pairwise_mentions.imp fun hlt heq => by simp [heq] at hlt

/-! ### Acceptance -/

/-- A text is accepted exactly if it splits into tokens that are an expression and whose variables
have admitted names as normal forms.  The formula then has the tokens of the text with variables
in normal form, and mentions the names of these tokens, each once and in order of first
occurrence. -/
theorem exists_parse_iff (rules : NameRules) (text : List Char) :
    ((∃ f, parse rules text = .ok f) ↔
      ∃ tokens, Splits text tokens ∧ (∃ e, IsSum tokens e) ∧
        ∀ name, .var name ∈ tokens → isVariableName (rules.normalize name) = true ∧
          rules.admits (rules.normalize name) = true) ∧
    ∀ f, parse rules text = .ok f →
      ∃ tokens, Token.scanAll text = .ok tokens ∧ Splits text tokens ∧ (∃ e, IsSum tokens e) ∧
        f.tokens = tokens.map (Token.normalize rules) ∧
        (∀ name, name ∈ f.mentions ↔ .var name ∈ f.tokens) ∧ f.mentions.Nodup ∧
        f.mentions.Pairwise fun a b =>
          (Token.names f.tokens).idxOf a < (Token.names f.tokens).idxOf b := by
  refine ⟨?_, fun f hf => ?_⟩
  · simp only [parse_eq_ok_iff_splits, NameRules.accepts, Bool.and_eq_true]
    constructor
    · rintro ⟨f, tokens, hsplits, hsum, hnames, -⟩
      exact ⟨tokens, hsplits, hsum, hnames⟩
    · rintro ⟨tokens, hsplits, hsum, hnames⟩
      exact ⟨_, tokens, hsplits, hsum, hnames, rfl⟩
  · obtain ⟨tokens, hscan, hfits, -, rfl⟩ := parse_eq_ok_iff.1 hf
    exact ⟨tokens, hscan, .of_scanAll hscan, exists_isSum_iff.2 hfits, rfl,
      fun name => mem_mentions_iff, nodup_mentions _, pairwise_mentions _⟩

/-- The text `b*(d - b)/a` where `b` is another spelling of `a`: the formula mentions `a` first,
then `d`. -/
theorem exists_parse_iff_respelled :
    ∃ f, parse ⟨fun name => if name = "b" then "a" else name, fun _ => true⟩
        "b*(d - b)/a".toList = .ok f ∧ f.mentions = ["a", "d"] ∧
      ∃ tokens, Token.scanAll "b*(d - b)/a".toList = .ok tokens ∧
        Splits "b*(d - b)/a".toList tokens ∧ (∃ e, IsSum tokens e) ∧
        f.tokens = tokens.map
          (Token.normalize ⟨fun name => if name = "b" then "a" else name, fun _ => true⟩) ∧
        (∀ name, name ∈ f.mentions ↔ .var name ∈ f.tokens) ∧ f.mentions.Nodup ∧
        f.mentions.Pairwise fun a b =>
          (Token.names f.tokens).idxOf a < (Token.names f.tokens).idxOf b := by
  have hparse : parse ⟨fun name => if name = "b" then "a" else name, fun _ => true⟩
      "b*(d - b)/a".toList =
        .ok ⟨[.var "a", .operator .mul, .opening, .var "d", .operator .sub, .var "a", .closing,
          .operator .div, .var "a"]⟩ := by
    cbv
  exact ⟨_, hparse, by cbv, (exists_parse_iff _ _).2 _ hparse⟩

end FormulaSheet.Formula
