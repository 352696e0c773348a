/-
Blanks in a formula.

Blanks say nothing, but they keep tokens apart: `2 e1` is cut into a number and a name, and `2e1`
is one number.  In a formula this makes no difference.  Between two operands stands an operator or a
parenthesis, and neither of them continues what stands before it; so the tokens of a formula are cut
alike however many blanks there are between them, and where there are none.

* **`Spaced`** — spellings one after another, with blanks anywhere between and around them;
* **`SpelledAs`** — the spellings of the tokens of a text;
* **`parse_of_spaced`** — a text with the same spellings and other blanks is the same formula.

What a text of given spellings splits into does not depend on its blanks, and of all the ways to
split a text at most one fits; so nothing has to be said about what is glued together where blanks
are taken out.
-/
import FormulaSheet.Proofs.Formula.Spelling

namespace FormulaSheet

/-- A text in which spellings stand one after another, with blanks before, between and after
them. -/
inductive Spaced : List (List Char) → List Char → Prop
  | nil {blanks : List Char} : (∀ c ∈ blanks, Text.isBlank c = true) → Spaced [] blanks
  | cons {blanks spelling rest : List Char} {spellings : List (List Char)} :
      (∀ c ∈ blanks, Text.isBlank c = true) → Spaced spellings rest →
      Spaced (spelling :: spellings) (blanks ++ spelling ++ rest)

/-- The tokens of a text are spelled in it one after another, as these spellings. -/
def SpelledAs (text : List Char) (spellings : List (List Char)) : Prop :=
  Spaced spellings text ∧
    ∃ tokens, Token.scanAll text = .ok tokens ∧ List.Forall₂ Spells spellings tokens

section Blanks

variable {text : List Char} {spellings : List (List Char)} {tokens : List Token}

/-- What a text splits into is decided by the spellings in it. -/
theorem Spaced.splits (h : Spaced spellings text) (hspells : List.Forall₂ Spells spellings tokens) :
    Splits text tokens := by
  induction h generalizing tokens with
  | nil hblanks =>
    obtain rfl := List.forall₂_nil_left_iff.1 hspells
    exact .blank hblanks
  | cons hblanks _ ih =>
    obtain ⟨token, later, hfirst, hlater, rfl⟩ := List.forall₂_cons_left_iff.1 hspells
    exact .token hblanks hfirst (ih hlater)

theorem Splits.exists_spaced (h : Splits text tokens) :
    ∃ spellings, Spaced spellings text ∧ List.Forall₂ Spells spellings tokens := by
  induction h with
  | blank hblanks => exact ⟨[], .nil hblanks, .nil⟩
  | token hblanks hfirst _ ih =>
    obtain ⟨spellings, hspaced, hspells⟩ := ih
    exact ⟨_ :: spellings, .cons hblanks hspaced, .cons hfirst hspells⟩

theorem spaced_flatten (spellings : List (List Char)) : Spaced spellings spellings.flatten := by
  induction spellings with
  | nil => exact .nil (by simp)
  | cons spelling later ih =>
    show Spaced (spelling :: later) ([] ++ spelling ++ later.flatten)
    exact .cons (by simp) ih

/-- If no spelling has a blank in it, taking all blanks out of a text leaves the spellings. -/
theorem Spaced.filter_eq_flatten (h : Spaced spellings text)
    (hspellings : ∀ s ∈ spellings, ∀ c ∈ s, ¬ Text.isBlank c = true) :
    text.filter (fun c => !Text.isBlank c) = spellings.flatten := by
  induction h with
  | nil hblanks =>
    rw [List.filter_eq_nil_iff.2 fun c hc => by simp [hblanks c hc]]
    rfl
  | @cons blanks spelling rest spellings hblanks _ ih =>
    obtain ⟨hfirst, hlater⟩ := List.forall_mem_cons.1 hspellings
    have hnone : blanks.filter (fun c => !Text.isBlank c) = [] :=
      List.filter_eq_nil_iff.2 fun c hc => by simp [hblanks c hc]
    have hall : spelling.filter (fun c => !Text.isBlank c) = spelling :=
      List.filter_eq_self.2 fun c hc => by simp [hfirst c hc]
    rw [List.filter_append, List.filter_append, hnone, hall, ih hlater, List.nil_append,
      List.flatten_cons]

theorem not_isBlank_of_forall₂_spells (h : List.Forall₂ Spells spellings tokens) :
    ∀ s ∈ spellings, ∀ c ∈ s, ¬ Text.isBlank c = true := by
  induction h with
  | nil => simp
  | cons hfirst _ ih => exact List.forall_mem_cons.2 ⟨fun c hc => hfirst.not_isBlank hc, ih⟩

end Blanks

namespace Formula

variable {rules : NameRules} {text : List Char} {f : Formula}

/-- A text is the formula that is made of the tokens it splits into, if these tokens are those of a
text that is one. -/
theorem parse_of_splits {text' : List Char} {tokens : List Token} (h : parse rules text = .ok f)
    (hscan : Token.scanAll text = .ok tokens) (hsplits : Splits text' tokens) :
    parse rules text' = .ok f := by
  obtain ⟨tokens', hscan', hfits, hnames, rfl⟩ := parse_eq_ok_iff.1 h
  obtain rfl : tokens = tokens' := Except.ok.inj (hscan.symm.trans hscan')
  exact parse_eq_ok_iff.2 ⟨tokens, hsplits.scanAll_of_fits hfits, hfits, hnames, rfl⟩

/-- Blanks in a formula do not count.  The tokens of a formula have spellings, which stand in its
text one after another; every text in which the same spellings stand, whatever blanks there are
between and around them, is the same formula, with the same tokens, names and canonical text.  So is
the text without any blanks. -/
theorem parse_of_spaced (h : parse rules text = .ok f) :
    (∃ spellings, SpelledAs text spellings) ∧
    (∀ spellings text', SpelledAs text spellings → Spaced spellings text' →
      parse rules text' = .ok f) ∧
    parse rules (text.filter fun c => !Text.isBlank c) = .ok f := by
  obtain ⟨tokens, hscan, -, -, -⟩ := parse_eq_ok_iff.1 h
  obtain ⟨spellings, hspaced, hspells⟩ := (Splits.of_scanAll hscan).exists_spaced
  refine ⟨⟨spellings, hspaced, tokens, hscan, hspells⟩, ?_, ?_⟩
  · rintro spellings' text' ⟨-, tokens', hscan', hspells'⟩ hspaced'
    exact parse_of_splits h hscan' (hspaced'.splits hspells')
  · -- without blanks the same spellings stand side by side
    rw [hspaced.filter_eq_flatten (not_isBlank_of_forall₂_spells hspells)]
    exact parse_of_splits h hscan ((spaced_flatten spellings).splits hspells)

/-- The text `3. *e - 1`, in which a name stands before a sign and a digit, as an exponent would
after the digits of a number; the same without blanks, and with others. -/
theorem parse_of_spaced_sign :
    ∃ f, parse {} "3. *e - 1".toList = .ok f ∧ parse {} "3.*e-1".toList = .ok f ∧
      parse {} "\t3. *\ne -1\u2003".toList = .ok f := by
  have hthree : Number.Numeral.IsLiteral ⟨['3'], some [], none⟩ :=
    ⟨List.all_eq_true.1 rfl, by simp, .inl (by simp), by simp⟩
  have hone : Number.Numeral.IsLiteral ⟨['1'], none, none⟩ :=
    ⟨List.all_eq_true.1 rfl, by simp, .inl (by simp), by simp⟩
  obtain ⟨tokens, hspells, hfits, hnames⟩ : ∃ tokens,
      List.Forall₂ Spells [['3', '.'], ['*'], ['e'], ['-'], ['1']] tokens ∧
        Fits true 0 tokens ∧ Token.names tokens = ["e"] :=
    ⟨_, .cons (.number hthree (by decide +kernel)) (.cons (.operator .mul)
        (.cons (@Spells.var "e" rfl) (.cons (.operator .sub)
          (.cons (.number hone (by decide +kernel)) .nil)))),
      .number _ (.operator .mul (.var "e" (.operator .sub (.number _ .done)))), rfl⟩
  -- each text is given by what stands before its spellings, and after the last one
  have hspaced : ∀ b₀ b₁ b₂ b₃ b₄ b₅ : List Char,
      (b₀ ++ b₁ ++ b₂ ++ b₃ ++ b₄ ++ b₅).all Text.isBlank = true →
      Spaced [['3', '.'], ['*'], ['e'], ['-'], ['1']]
        (b₀ ++ ['3', '.'] ++ (b₁ ++ ['*'] ++ (b₂ ++ ['e'] ++ (b₃ ++ ['-'] ++
          (b₄ ++ ['1'] ++ b₅))))) := by
    intro b₀ b₁ b₂ b₃ b₄ b₅ h
    simp only [List.all_append, Bool.and_eq_true, List.all_eq_true] at h
    obtain ⟨⟨⟨⟨⟨h₀, h₁⟩, h₂⟩, h₃⟩, h₄⟩, h₅⟩ := h
    exact .cons h₀ (.cons h₁ (.cons h₂ (.cons h₃ (.cons h₄ (.nil h₅)))))
  have htext := hspaced [] [' '] [] [' '] [' '] [] rfl
  have hscan := (htext.splits hspells).scanAll_of_fits hfits
  have hparse : parse {} "3. *e - 1".toList = .ok _ :=
    parse_eq_ok_iff.2 ⟨tokens, hscan, hfits, by rw [hnames]; decide, rfl⟩
  obtain ⟨-, hother, hnone⟩ := parse_of_spaced hparse
  exact ⟨_, hparse, hnone, hother _ _ ⟨htext, tokens, hscan, hspells⟩
    (hspaced ['\t'] [' '] ['\n'] [' '] [] ['\u2003'] rfl)⟩

end Formula

end FormulaSheet
