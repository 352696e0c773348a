/-
Texts that are spelled as tokens.

`Spells text token` is the grammar of tokens, and `Splits text tokens` says that a text is such
spellings one after another, with blanks anywhere between and around them.  Neither says which
spelling is taken where there is a choice: `1e5` splits into one literal, into `1` and `e5`, and
into `1`, `e` and `5`.

* **`Splits.trim`** — blanks around a text do not change how it can be split;
* **`Splits.of_scanAll`** — the tokens of a text are a way to split it;
* **`Splits.scanAll_of_fits`** — and they are the only way that can be an expression.

For the second, two operands are never next to each other in an expression, and what stands
between operands continues neither a name nor a numeral.
-/
import FormulaSheet.Proofs.Formula.Grammar
import FormulaSheet.Proofs.Number.Numeral

namespace FormulaSheet

open Text (Stops)

/-! ### Spellings -/

/-- A text that spells a token: a parenthesis, an operator, a variable name, or a literal that
reads as a finite double. -/
inductive Spells : List Char → Token → Prop
  | opening : Spells ['('] .opening
  | closing : Spells [')'] .closing
  | operator (o : Operator) : Spells [o.symbol] (.operator o)
  | var {name : String} : isVariableName name = true → Spells name.toList (.var name)
  | number {n : Number.Numeral} : n.IsLiteral → n.pattern < Number.Binary64.infinity →
      Spells n.text (.number (Number.ofMagnitude false n.pattern))

/-- A text that is the spellings of tokens, with blanks before, between and after them. -/
inductive Splits : List Char → List Token → Prop
  | blank {blanks : List Char} : (∀ c ∈ blanks, Text.isBlank c = true) → Splits blanks []
  | token {blanks text rest : List Char} {token : Token} {tokens : List Token} :
      (∀ c ∈ blanks, Text.isBlank c = true) → Spells text token → Splits rest tokens →
      Splits (blanks ++ text ++ rest) (token :: tokens)

/-! ### Characters of a spelling -/

/-- What may continue an operand: a character of a name, or a point. -/
def continuesOperand (c : Char) : Bool :=
  continuesName c || c == '.'

theorem isVisible_of_continuesName {c : Char} (h : continuesName c = true) :
    Text.isVisible c = true := by
  rw [continuesName, Bool.or_eq_true, beq_iff_eq] at h
  rcases h with h | rfl
  · exact Text.isVisible_of_isAlphanum h
  · decide

theorem isVisible_of_continuesOperand {c : Char} (h : continuesOperand c = true) :
    Text.isVisible c = true := by
  rw [continuesOperand, Bool.or_eq_true, beq_iff_eq] at h
  rcases h with h | rfl
  · exact isVisible_of_continuesName h
  · decide

theorem continuesName_of_startsName {c : Char} (h : startsName c = true) :
    continuesName c = true := by
  simp only [startsName, continuesName, Char.isAlphanum, Bool.or_eq_true] at h ⊢
  rcases h with h | h
  · exact .inl (.inl h)
  · exact .inr h

theorem startsName_of_isDigit {c : Char} (h : c.isDigit = true) : startsName c = false := by
  rw [Bool.eq_false_iff]
  intro hstarts
  rw [startsName, Bool.or_eq_true, beq_iff_eq] at hstarts
  rcases hstarts with halpha | rfl
  · -- digits and letters are ranges of codes that do not meet
    simp only [Char.isAlpha, Char.isUpper, Char.isLower, Char.isDigit, Bool.or_eq_true,
      Bool.and_eq_true, decide_eq_true_eq, UInt32.le_iff_toNat_le, ge_iff_le] at halpha h
    simp only [Char.reduceVal, UInt32.reduceToNat] at halpha h
    omega
  · cases h

theorem continuesNumeral_of_continuesOperand {c : Char} (h : continuesOperand c = false) :
    Number.continuesNumeral c = false := by
  simp only [continuesOperand, continuesName, Char.isAlphanum, Bool.or_eq_false_iff,
    beq_eq_false_iff_ne] at h
  obtain ⟨⟨⟨halpha, hdigit⟩, -⟩, hpoint⟩ := h
  have hletter : ∀ d : Char, d.isAlpha = true → c ≠ d := by
    rintro d hd rfl
    simp [hd] at halpha
  simp [Number.continuesNumeral, hdigit, hpoint, hletter 'e' (by decide), hletter 'E' (by decide)]

theorem ofSymbol?_eq_none {c : Char} (h : ∀ o : Operator, c ≠ o.symbol) :
    Operator.ofSymbol? c = none :=
  Option.eq_none_iff_forall_ne_some.2 fun o ho => h o (Operator.ofSymbol?_eq_some_iff.1 ho)

theorem isVariableName_iff {name : String} :
    isVariableName name = true ↔ ∃ first tail, name.toList = first :: tail ∧
      startsName first = true ∧ ∀ c ∈ tail, continuesName c = true := by
  unfold isVariableName
  split
  · next htext => simp [htext]
  · next first tail htext => simp [htext]

theorem exists_of_isVariableName {name : String} (h : isVariableName name = true) :
    ∃ c tail, name.toList = c :: tail ∧ continuesName c = true := by
  obtain ⟨first, tail, htext, hfirst, -⟩ := isVariableName_iff.1 h
  exact ⟨first, tail, htext, continuesName_of_startsName hfirst⟩

theorem continuesName_of_mem {name : String} (h : isVariableName name = true) {c : Char}
    (hc : c ∈ name.toList) : continuesName c = true := by
  obtain ⟨first, tail, htext, hfirst, htail⟩ := isVariableName_iff.1 h
  rw [htext] at hc
  rcases List.mem_cons.1 hc with rfl | hc
  · exact continuesName_of_startsName hfirst
  · exact htail c hc

namespace Spells

variable {text : List Char} {token : Token}

theorem isVisible (h : Spells text token) {c : Char} (hc : c ∈ text) :
    Text.isVisible c = true := by
  cases h with
  | opening =>
    obtain rfl := List.mem_singleton.1 hc
    decide
  | closing =>
    obtain rfl := List.mem_singleton.1 hc
    decide
  | operator o =>
    obtain rfl := List.mem_singleton.1 hc
    cases o <;> decide
  | var hname => exact isVisible_of_continuesName (continuesName_of_mem hname hc)
  | number hliteral _ => exact hliteral.isVisible hc

theorem not_isBlank (h : Spells text token) {c : Char} (hc : c ∈ text) :
    ¬ Text.isBlank c = true := by
  rw [Text.isBlank_of_isVisible (h.isVisible hc)]
  exact Bool.false_ne_true

theorem ne_nil (h : Spells text token) : text ≠ [] := by
  cases h with
  | var hname =>
    obtain ⟨c, tail, htext, -⟩ := exists_of_isVariableName hname
    rw [htext]
    exact List.cons_ne_nil c tail
  | number hliteral _ =>
    obtain ⟨c, tail, htext, -⟩ := hliteral.exists_head
    rw [htext]
    exact List.cons_ne_nil c tail
  | _ => exact List.cons_ne_nil _ _

end Spells

/-! ### Blanks around a text -/

namespace Splits

variable {blanks text : List Char} {tokens : List Token}

theorem blank_append (hblanks : ∀ c ∈ blanks, Text.isBlank c = true) (h : Splits text tokens) :
    Splits (blanks ++ text) tokens := by
  cases h with
  | blank htext => exact .blank (List.forall_mem_append.2 ⟨hblanks, htext⟩)
  | token hbefore hspells hrest =>
    rw [← List.append_assoc, ← List.append_assoc]
    exact .token (List.forall_mem_append.2 ⟨hblanks, hbefore⟩) hspells hrest

theorem append_blank (h : Splits text tokens) (hblanks : ∀ c ∈ blanks, Text.isBlank c = true) :
    Splits (text ++ blanks) tokens := by
  induction h with
  | blank htext => exact .blank (List.forall_mem_append.2 ⟨htext, hblanks⟩)
  | token hbefore hspells _ ih =>
    rw [List.append_assoc]
    exact .token hbefore hspells ih

theorem of_blank_append (hblanks : ∀ c ∈ blanks, Text.isBlank c = true)
    (h : Splits (blanks ++ text) tokens) : Splits text tokens := by
  generalize hwhole : blanks ++ text = whole at h
  cases h with
  | blank hall =>
    subst hwhole
    exact .blank (List.forall_mem_append.1 hall).2
  | @token before spelling rest token tokens hbefore hspells hrest =>
    rw [List.append_assoc] at hwhole
    rcases List.append_eq_append_iff.1 hwhole with ⟨more, rfl, rfl⟩ | ⟨more, rfl, hmore⟩
    · rw [← List.append_assoc]
      exact .token (List.forall_mem_append.1 hbefore).2 hspells hrest
    · -- the spelling starts with what is left of the blanks, so nothing is left
      cases more with
      | nil =>
        have hsplits := Splits.token (List.forall_mem_nil _) hspells hrest
        rwa [List.nil_append, hmore] at hsplits
      | cons c more =>
        obtain ⟨d, tail, rfl⟩ := List.exists_cons_of_ne_nil hspells.ne_nil
        obtain ⟨rfl, -⟩ := List.cons.inj hmore
        exact absurd (hblanks d (List.mem_append_right _ (.head _))) (hspells.not_isBlank (.head _))

theorem of_append_blank (h : Splits (text ++ blanks) tokens)
    (hblanks : ∀ c ∈ blanks, Text.isBlank c = true) : Splits text tokens := by
  generalize hwhole : text ++ blanks = whole at h
  induction h generalizing text with
  | blank hall =>
    subst hwhole
    exact .blank (List.forall_mem_append.1 hall).1
  | @token before spelling rest token tokens hbefore hspells hrest ih =>
    rcases List.append_eq_append_iff.1 hwhole with ⟨more, hmore, rfl⟩ | ⟨more, rfl, rfl⟩
    · rcases List.append_eq_append_iff.1 hmore with ⟨left, rfl, rfl⟩ | ⟨left, rfl, rfl⟩
      · -- the spelling ends with the first of the blanks, so it ends before them
        cases more with
        | nil =>
          rw [List.append_nil] at hspells
          rw [← List.append_nil (before ++ left)]
          exact .token hbefore hspells (ih rfl)
        | cons c more =>
          have hc := hspells.not_isBlank (List.mem_append_right left (.head more))
          exact absurd (hblanks c (.head _)) hc
      · -- the whole spelling would lie among the blanks
        obtain ⟨d, tail, rfl⟩ := List.exists_cons_of_ne_nil hspells.ne_nil
        have hd := hblanks d (List.mem_append_left _ (List.mem_append_right _ (.head _)))
        exact absurd hd (hspells.not_isBlank (.head _))
    · exact .token hbefore hspells (ih rfl)

theorem trimEnd (h : Splits text tokens) : Splits (Text.trimEnd text) tokens := by
  obtain ⟨blanks, hblanks, htext⟩ := Text.exists_trimEnd_append text
  rw [htext] at h
  exact h.of_append_blank hblanks

/-- Cutting the blanks at both ends leaves the ways to split a text. -/
theorem trim (h : Splits text tokens) : Splits (Text.trim text) tokens := by
  obtain ⟨blanks, hblanks, htext⟩ := Text.exists_append_trimStart text
  rw [htext] at h
  exact (of_blank_append hblanks h).trimEnd

end Splits

/-! ### What is scanned is spelled -/

namespace Lexeme

/-- A lexeme of the grammar of tokens. -/
inductive IsSpelled : Lexeme → Prop
  | opening : IsSpelled .opening
  | closing : IsSpelled .closing
  | operator (o : Operator) : IsSpelled (.operator o)
  | name {first : Char} {tail : List Char} : startsName first = true →
      (∀ c ∈ tail, continuesName c = true) → IsSpelled (.name (first :: tail))
  | numeral {n : Number.Numeral} : n.IsLiteral → IsSpelled (.numeral n)

variable {text rest : List Char} {lexeme : Lexeme} {token : Token}

/-- The lexeme that is scanned is one of the grammar, and the text starts with it. -/
theorem isSpelled_of_scan? (hscan : scan? text = some (lexeme, rest)) :
    lexeme.IsSpelled ∧ text = lexeme.chars ++ rest := by
  cases text with
  | nil => cases hscan
  | cons first tail =>
    -- one step for each kind of lexeme, in the order in which they are tried
    rw [scan?] at hscan
    split at hscan
    · next hfirst =>
      cases hscan
      exact ⟨.opening, by rw [hfirst]; rfl⟩
    split at hscan
    · next hfirst =>
      cases hscan
      exact ⟨.closing, by rw [hfirst]; rfl⟩
    split at hscan
    · next o hsymbol =>
      cases hscan
      exact ⟨.operator o, by rw [Operator.ofSymbol?_eq_some_iff.1 hsymbol]; rfl⟩
    split at hscan
    · next hstarts =>
      cases hscan
      refine ⟨.name hstarts fun c hc => List.mem_takeWhile_imp hc, ?_⟩
      rw [chars, List.cons_append, List.takeWhile_append_dropWhile]
    · obtain ⟨⟨n, after⟩, hn, heq⟩ := Option.map_eq_some_iff.1 hscan
      obtain ⟨rfl, rfl⟩ := Prod.mk.inj heq
      obtain ⟨hliteral, htext⟩ := Number.Numeral.isLiteral_of_scan? hn
      exact ⟨.numeral hliteral, htext⟩

/-- A lexeme of the grammar spells its token. -/
theorem IsSpelled.spells (h : lexeme.IsSpelled) (htoken : lexeme.token = .ok token) :
    Spells lexeme.chars token := by
  cases h with
  | opening =>
    obtain rfl := Except.ok.inj htoken
    exact .opening
  | closing =>
    obtain rfl := Except.ok.inj htoken
    exact .closing
  | operator o =>
    obtain rfl := Except.ok.inj htoken
    exact .operator o
  | @name first tail hstarts htail =>
    obtain rfl := Except.ok.inj htoken
    have hname : isVariableName (String.ofList (first :: tail)) = true :=
      isVariableName_iff.2 ⟨first, tail, String.toList_ofList, hstarts, htail⟩
    have hspells := Spells.var hname
    rwa [String.toList_ofList] at hspells
  | numeral hliteral =>
    rw [Lexeme.token] at htoken
    split at htoken
    · next hfinite =>
      obtain rfl := Except.ok.inj htoken
      exact .number hliteral hfinite
    · cases htoken

/-- The token that is scanned at the start of a text is spelled there. -/
theorem spells_of_scan? (hscan : scan? text = some (lexeme, rest))
    (htoken : lexeme.token = .ok token) :
    ∃ spelling, Spells spelling token ∧ text = spelling ++ rest := by
  obtain ⟨hspelled, htext⟩ := isSpelled_of_scan? hscan
  exact ⟨lexeme.chars, hspelled.spells htoken, htext⟩

end Lexeme

/-- The tokens of a text are a way to split it. -/
theorem Splits.of_scanAll {text : List Char} {tokens : List Token}
    (h : Token.scanAll text = .ok tokens) : Splits text tokens := by
  have hblanks : ∀ text : List Char, ∀ c ∈ text.takeWhile Text.isBlank, Text.isBlank c = true :=
    fun _ _ hc => List.mem_takeWhile_imp hc
  fun_induction Token.scanAll text generalizing tokens with
  | case1 text hempty =>
    cases h
    refine .blank fun c hc => ?_
    rw [List.isEmpty_iff, Text.trimStart, List.dropWhile_eq_nil_iff] at hempty
    exact hempty c hc
  | case2 text hempty hscan => cases h
  | case3 text hempty lexeme rest hscan ih =>
    obtain ⟨token, htoken, h⟩ := bind_eq_ok_iff.1 h
    obtain ⟨after, hafter, h⟩ := bind_eq_ok_iff.1 h
    cases h
    -- the blanks that were skipped stand before the spelling
    obtain ⟨spelling, hspells, htext⟩ := Lexeme.spells_of_scan? hscan htoken
    have hsplits := Splits.token (hblanks text) hspells (ih hafter)
    rwa [List.append_assoc, ← htext, Text.trimStart, List.takeWhile_append_dropWhile] at hsplits

/-! ### What is spelled is scanned -/

namespace Lexeme

variable {rest : List Char}

/-- What starts as a name is cut as one. -/
theorem scan?_cons_of_startsName {first : Char} (hfirst : startsName first = true)
    (rest : List Char) : scan? (first :: rest) =
      some (.name (first :: rest.takeWhile continuesName), rest.dropWhile continuesName) := by
  have hne : ∀ c : Char, startsName c = false → first ≠ c := by
    rintro c hc rfl
    rw [hc] at hfirst
    cases hfirst
  have hsymbol : Operator.ofSymbol? first = none :=
    ofSymbol?_eq_none fun o => hne _ (by cases o <;> decide)
  rw [scan?, if_neg (hne _ (by decide)), if_neg (hne _ (by decide)), hsymbol]
  simp only [hfirst, if_true]

/-- What starts as a numeral is cut as one. -/
theorem scan?_cons_of_isDigit_or {c : Char} (hc : c.isDigit = true ∨ c = '.') (rest : List Char) :
    scan? (c :: rest) =
      (Number.Numeral.scan? (c :: rest)).map fun (n, rest) => (.numeral n, rest) := by
  have hne : ∀ d : Char, d.isDigit = false → d ≠ '.' → c ≠ d := by
    rintro d hdigit hpoint rfl
    rcases hc with hc | hc
    · rw [hc] at hdigit
      cases hdigit
    · exact hpoint hc
  have hsymbol : Operator.ofSymbol? c = none :=
    ofSymbol?_eq_none fun o => hne _ (by cases o <;> decide) (by cases o <;> decide)
  have hstarts : startsName c = false := by
    rcases hc with hc | rfl
    · exact startsName_of_isDigit hc
    · decide
  rw [scan?, if_neg (hne _ (by decide) (by decide)), if_neg (hne _ (by decide) (by decide)),
    hsymbol]
  simp only [hstarts, Bool.false_eq_true, if_false]

/-- The name at the start of a text that goes on with something else. -/
theorem scan?_name {name : String} (hname : isVariableName name = true)
    (hrest : Stops continuesName rest) :
    scan? (name.toList ++ rest) = some (.name name.toList, rest) := by
  obtain ⟨first, tail, htext, hfirst, htail⟩ := isVariableName_iff.1 hname
  rw [htext, List.cons_append, scan?_cons_of_startsName hfirst,
    Text.takeWhile_append_of_stops htail hrest, Text.dropWhile_append_of_stops htail hrest]

/-- The numeral at the start of a text that goes on with something else. -/
theorem scan?_numeral {n : Number.Numeral} (hn : n.IsLiteral)
    (hrest : Stops Number.continuesNumeral rest) :
    scan? (n.text ++ rest) = some (.numeral n, rest) := by
  have hscan := Number.Numeral.scan?_text hn hrest
  obtain ⟨c, tail, htext, hc⟩ := hn.exists_head
  rw [htext, List.cons_append] at hscan ⊢
  rw [scan?_cons_of_isDigit_or hc, hscan, Option.map_some]

end Lexeme

namespace Token

variable {text rest : List Char} {token : Token} {tokens : List Token}

/-- A lexeme is cut from the start of a text; then its token is looked at, and then the rest. -/
theorem scanAll_eq_of_scan? {lexeme : Lexeme} (hstart : Stops Text.isBlank text)
    (hscan : Lexeme.scan? text = some (lexeme, rest)) :
    scanAll text = lexeme.token >>= fun token => scanAll rest >>= fun tokens =>
      .ok (token :: tokens) := by
  have hne : text.isEmpty = false := by
    cases text with
    | nil => cases hscan
    | cons c cs => rfl
  rw [scanAll, Text.trimStart_eq_self hstart, hne]
  simp only [Bool.false_eq_true, if_false]
  split
  · next hnone =>
    rw [hscan] at hnone
    cases hnone
  · next found after hfound =>
    rw [hscan] at hfound
    obtain ⟨rfl, rfl⟩ := Prod.mk.inj (Option.some.inj hfound)
    rfl

theorem scanAll_of_scan? {lexeme : Lexeme} (hstart : Stops Text.isBlank text)
    (hscan : Lexeme.scan? text = some (lexeme, rest)) (htoken : lexeme.token = .ok token)
    (hrest : scanAll rest = .ok tokens) : scanAll text = .ok (token :: tokens) := by
  rw [scanAll_eq_of_scan? hstart hscan, htoken, hrest]
  rfl

/-- A token is cut from its spelling, if nothing continues it there. -/
theorem scanAll_of_spells (hspells : Spells text token)
    (hstops : token.closesOperand = true → Stops continuesOperand rest)
    (hrest : scanAll rest = .ok tokens) : scanAll (text ++ rest) = .ok (token :: tokens) := by
  have hstart : Stops Text.isBlank (text ++ rest) := fun c hc => by
    rw [List.head?_append_of_ne_nil _ hspells.ne_nil] at hc
    exact Text.isBlank_of_isVisible (hspells.isVisible (List.mem_of_mem_head? hc))
  cases hspells with
  | opening => exact scanAll_of_scan? hstart rfl rfl hrest
  | closing => exact scanAll_of_scan? hstart rfl rfl hrest
  | operator o => cases o <;> exact scanAll_of_scan? hstart rfl rfl hrest
  | var hname =>
    -- a point may not follow an operand, but it would not continue a name
    have hcontinues : Stops continuesName rest := (hstops rfl).mono fun c hc => by
      rw [continuesOperand, Bool.or_eq_false_iff] at hc
      exact hc.1
    refine scanAll_of_scan? hstart (Lexeme.scan?_name hname hcontinues) ?_ hrest
    rw [Lexeme.token, String.ofList_toList]
  | number hliteral hfinite =>
    have hcontinues : Stops Number.continuesNumeral rest :=
      (hstops rfl).mono fun c hc => continuesNumeral_of_continuesOperand hc
    refine scanAll_of_scan? hstart (Lexeme.scan?_numeral hliteral hcontinues) ?_ hrest
    rw [Lexeme.token, if_pos hfinite]

theorem scanAll_append_of_blank {blanks : List Char} (h : ∀ c ∈ blanks, Text.isBlank c = true)
    (text : List Char) : scanAll (blanks ++ text) = scanAll text := by
  have htrim : Text.trimStart (blanks ++ text) = Text.trimStart text :=
    List.dropWhile_append_of_pos h
  rw [scanAll, scanAll, htrim]

theorem scanAll_of_blank {blanks : List Char} (h : ∀ c ∈ blanks, Text.isBlank c = true) :
    scanAll blanks = .ok [] := by
  rw [← List.append_nil blanks, scanAll_append_of_blank h, scanAll]
  rfl

end Token

/-! ### Only one way to split can be an expression -/

/-- What follows an operand does not continue it. -/
theorem Fits.stops {depth : Nat} {tokens : List Token} (h : Fits false depth tokens)
    {text : List Char} (hsplits : Splits text tokens) : Stops continuesOperand text := by
  have hblank : ∀ c, Text.isBlank c = true → continuesOperand c = false := fun c hc => by
    rw [Bool.eq_false_iff]
    intro hcontinues
    rw [Text.isBlank_of_isVisible (isVisible_of_continuesOperand hcontinues)] at hc
    cases hc
  cases hsplits with
  | blank hblanks => exact fun c hc => hblank c (hblanks c (List.mem_of_mem_head? hc))
  | @token blanks text rest token tokens hblanks hspells hrest =>
    cases blanks with
    | cons c cs => exact Text.stops_cons (hblank c (hblanks c (.head _)))
    | nil =>
      -- with no blank before it, it is an operator or a closing parenthesis that comes next
      cases h with
      | operator o _ =>
        cases hspells
        exact Text.stops_cons (by cases o <;> decide)
      | closing _ =>
        cases hspells
        exact Text.stops_cons (by decide)

/-- Tokens that fit are the tokens of every text that splits into them. -/
theorem Splits.scanAll_of_fits {text : List Char} {tokens : List Token} (h : Splits text tokens)
    {operandNext : Bool} {depth : Nat} (hfits : Fits operandNext depth tokens) :
    Token.scanAll text = .ok tokens := by
  induction h generalizing operandNext depth with
  | @blank blanks hblanks =>
    exact Token.scanAll_of_blank hblanks
  | @token blanks text rest token tokens hblanks hspells hrest ih =>
    obtain ⟨-, -, hfits⟩ := fits_cons_iff.1 hfits
    rw [List.append_assoc, Token.scanAll_append_of_blank hblanks]
    -- after an operand comes an operator or a closing parenthesis, or nothing
    refine Token.scanAll_of_spells hspells (fun hcloses => ?_) (ih hfits)
    rw [hcloses] at hfits
    exact hfits.stops hrest

end FormulaSheet
