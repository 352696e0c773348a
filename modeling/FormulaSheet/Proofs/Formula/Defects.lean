/-
The first defect of a text.

A text that is no formula is refused for one reason.  If it cannot be cut into tokens, the reason is
the first place where that fails.  Otherwise its tokens are looked at: there are none, the first or
the last of them is out of place, or one in between is; and if every token is in its place, a
parenthesis is never closed.

* **`IsInPlace`**, **`Misplaced`** — a token among those before and after it, or what is wrong
  there;
* **`DefectWithin`**, **`Defect`** — what is wrong with tokens: the first place where something is,
  or else the count of their parentheses;
* **`Formula.firstDefect_eq_some_iff`** — this is what is found;
* **`Formula.parse_eq_error_iff`** — a text is refused for its first defect, and for no other
  reason.

At each place either nothing is wrong or exactly one thing is reported, and a place is reported only
if nothing is wrong at those before it.  So two reports on the same tokens are one, and it is enough
that the check makes a report that is true.
-/
import FormulaSheet.Proofs.Formula.Cutting

namespace FormulaSheet

/-! ### Places -/

namespace Token

/-- The number of parentheses that tokens open. -/
def openingsIn (tokens : List Token) : Nat :=
  (tokens.map openings).sum

/-- The number of parentheses that tokens close. -/
def closingsIn (tokens : List Token) : Nat :=
  (tokens.map closings).sum

theorem openingsIn_concat (tokens : List Token) (token : Token) :
    openingsIn (tokens ++ [token]) = openingsIn tokens + token.openings := by
  simp [openingsIn]

theorem closingsIn_concat (tokens : List Token) (token : Token) :
    closingsIn (tokens ++ [token]) = closingsIn tokens + token.closings := by
  simp [closingsIn]

end Token

open Token (openingsIn closingsIn)

/-- Nothing is wrong with a token after some tokens and before others: up to it no more parentheses
are closed than opened, the token after it may follow, and if it is a variable its name is
accepted. -/
structure IsInPlace (rules : NameRules) (before : List Token) (token : Token)
    (after : List Token) : Prop where
  parentheses : closingsIn (before ++ [token]) ≤ openingsIn (before ++ [token])
  next : ∀ next, after.head? = some next → next.opensOperand = !token.closesOperand
  name : ∀ name, token = .var name → rules.accepts (rules.normalize name) = true

/-- Nothing is wrong with any of the tokens before some others. -/
def AllInPlace (rules : NameRules) (tokens after : List Token) : Prop :=
  ∀ before token later, tokens = before ++ token :: later →
    IsInPlace rules before token (later ++ after)

/-- What is wrong with a token after some tokens and before others.  A parenthesis that was never
opened comes first, then a token that may not follow, then a name that is refused. -/
inductive Misplaced (rules : NameRules) (before : List Token) :
    Token → List Token → FormulaError → Prop
  | unmatchedClosing {after : List Token} :
      closingsIn (before ++ [.closing]) = openingsIn (before ++ [.closing]) + 1 →
      Misplaced rules before .closing after (.unmatchedClosing before.length)
  | operatorExpected {token next : Token} {after : List Token} :
      closingsIn (before ++ [token]) ≤ openingsIn (before ++ [token]) →
      token.closesOperand = true → next.opensOperand = true →
      Misplaced rules before token (next :: after) (.operatorExpected token next)
  | operandExpected {token next : Token} {after : List Token} :
      closingsIn (before ++ [token]) ≤ openingsIn (before ++ [token]) →
      token.closesOperand = false → next.opensOperand = false →
      Misplaced rules before token (next :: after) (.operandExpected token next)
  | badVariable {name : String} {after : List Token} :
      (∀ next, after.head? = some next → next.opensOperand = false) →
      rules.accepts (rules.normalize name) = false →
      Misplaced rules before (.var name) after (.badVariable name)

/-- What is wrong along tokens: something at the first place where anything is, or nothing at any
place, but more parentheses are opened than closed. -/
inductive DefectWithin (rules : NameRules) : List Token → FormulaError → Prop
  | misplaced {before after : List Token} {token : Token} {e : FormulaError} :
      AllInPlace rules before (token :: after) → Misplaced rules before token after e →
      DefectWithin rules (before ++ token :: after) e
  | unbalanced {tokens : List Token} : AllInPlace rules tokens [] →
      closingsIn tokens < openingsIn tokens →
      DefectWithin rules tokens (.unbalanced (openingsIn tokens) (closingsIn tokens))

section Places

variable {rules : NameRules} {before before' after after' later tokens rest : List Token}
  {token token' : Token} {e e' : FormulaError}

theorem allInPlace_nil (rules : NameRules) (after : List Token) : AllInPlace rules [] after := by
  intro before token later h
  simp at h

theorem AllInPlace.concat (h : AllInPlace rules before (token :: rest))
    (htoken : IsInPlace rules before token rest) : AllInPlace rules (before ++ [token]) rest := by
  intro front t later heq
  -- the place is the new one, or one of those before it
  rcases List.eq_nil_or_concat later with rfl | ⟨later, last, rfl⟩
  · obtain ⟨rfl, hlast⟩ := List.append_inj' heq rfl
    obtain rfl := List.singleton_inj.1 hlast
    exact htoken
  · rw [List.concat_eq_append, ← List.cons_append, ← List.append_assoc] at heq
    obtain ⟨rfl, hlast⟩ := List.append_inj' heq rfl
    obtain rfl := List.singleton_inj.1 hlast
    rw [List.concat_eq_append, List.append_assoc]
    exact h front t later rfl

theorem AllInPlace.closingsIn_le (h : AllInPlace rules before after) :
    closingsIn before ≤ openingsIn before := by
  rcases List.eq_nil_or_concat before with rfl | ⟨front, last, rfl⟩
  · exact Nat.le_refl _
  · rw [List.concat_eq_append] at h ⊢
    exact (h front last [] rfl).parentheses

/-- At every place either nothing is wrong, or something is. -/
theorem isInPlace_or_misplaced (h : closingsIn before ≤ openingsIn before) (token : Token)
    (after : List Token) :
    IsInPlace rules before token after ∨ ∃ e, Misplaced rules before token after e := by
  -- the questions are asked in the order in which the check asks them
  by_cases hdepth : closingsIn (before ++ [token]) ≤ openingsIn (before ++ [token])
  · by_cases hnext : ∀ next, after.head? = some next → next.opensOperand = !token.closesOperand
    · by_cases hname : ∀ name, token = .var name → rules.accepts (rules.normalize name) = true
      · exact .inl ⟨hdepth, hnext, hname⟩
      · simp only [not_forall, Bool.not_eq_true] at hname
        obtain ⟨name, rfl, hrefused⟩ := hname
        exact .inr ⟨_, .badVariable hnext hrefused⟩
    · simp only [not_forall] at hnext
      obtain ⟨next, hhead, hnext⟩ := hnext
      obtain ⟨later, rfl⟩ := List.head?_eq_some_iff.1 hhead
      rcases hcloses : token.closesOperand with _ | _
      · rw [hcloses, Bool.not_false, Bool.not_eq_true] at hnext
        exact .inr ⟨_, .operandExpected hdepth hcloses hnext⟩
      · rw [hcloses, Bool.not_true, Bool.not_eq_false] at hnext
        exact .inr ⟨_, .operatorExpected hdepth hcloses hnext⟩
  · -- only a closing parenthesis can tip the balance
    have hcount : openingsIn (before ++ [token]) < closingsIn (before ++ [token]) := by omega
    rw [Token.openingsIn_concat, Token.closingsIn_concat] at hcount
    obtain rfl : token = .closing := by
      rcases token with _ | _ | _ | _ | _ <;> simp only [Token.openings, Token.closings] at hcount
      · omega
      · rfl
      all_goals omega
    refine .inr ⟨_, .unmatchedClosing ?_⟩
    rw [Token.openingsIn_concat, Token.closingsIn_concat]
    simp only [Token.openings, Token.closings] at hcount ⊢
    omega

theorem Misplaced.not_isInPlace (h : Misplaced rules before token after e) :
    ¬ IsInPlace rules before token after := by
  intro hplace
  cases h with
  | unmatchedClosing hcount =>
    have := hplace.parentheses
    omega
  | operatorExpected _ hcloses hopens =>
    have hnext := hplace.next _ rfl
    rw [hcloses, hopens] at hnext
    cases hnext
  | operandExpected _ hcloses hopens =>
    have hnext := hplace.next _ rfl
    rw [hcloses, hopens] at hnext
    cases hnext
  | badVariable _ hname =>
    rw [hplace.name _ rfl] at hname
    cases hname

/-- There is one first place where something is wrong. -/
theorem eq_of_misplaced (h : AllInPlace rules before (token :: after))
    (hmisplaced : Misplaced rules before token after e)
    (h' : AllInPlace rules before' (token' :: after'))
    (hmisplaced' : Misplaced rules before' token' after' e')
    (heq : before ++ token :: after = before' ++ token' :: after') :
    before = before' ∧ token = token' ∧ after = after' := by
  rcases List.append_eq_append_iff.1 heq with ⟨more, rfl, hmore⟩ | ⟨more, rfl, hmore⟩
  · rcases more with _ | ⟨t, more⟩
    · obtain ⟨rfl, rfl⟩ := List.cons.inj hmore
      exact ⟨(List.append_nil _).symm, rfl, rfl⟩
    · -- the other place comes later, so nothing is wrong at this one
      obtain ⟨rfl, rfl⟩ := List.cons.inj hmore
      exact absurd (h' before token more rfl) hmisplaced.not_isInPlace
  · rcases more with _ | ⟨t, more⟩
    · obtain ⟨rfl, rfl⟩ := List.cons.inj hmore
      exact ⟨List.append_nil _, rfl, rfl⟩
    · obtain ⟨rfl, rfl⟩ := List.cons.inj hmore
      exact absurd (h before' token' more rfl) hmisplaced'.not_isInPlace

end Places

/-! ### What is found -/

namespace Formula

variable {rules : NameRules} {before after rest tokens : List Token} {token : Token}
  {e : FormulaError}

/-- A token that may not follow is found where no parenthesis is closed too early. -/
theorem defectFrom_of_adjacencyDefect {openings closings position : Nat}
    (hdepth : closings + token.closings ≤ openings + token.openings)
    (hnext : rest.head?.bind token.adjacencyDefect = some e) :
    defectFrom rules openings closings position (token :: rest) = some e := by
  rcases token with _ | _ | _ | _ | _ <;> simp only [Token.openings, Token.closings] at hdepth <;>
    simp only [defectFrom, hnext, Bool.false_eq_true, if_true, if_false] <;>
    exact if_neg (by omega)

/-- A token that is in place is passed over. -/
theorem defectFrom_of_isInPlace (h : IsInPlace rules before token rest) :
    defectFrom rules (openingsIn before) (closingsIn before) before.length (token :: rest) =
      defectFrom rules (openingsIn (before ++ [token])) (closingsIn (before ++ [token]))
        (before ++ [token]).length rest := by
  obtain ⟨hdepth, hnext, hname⟩ := h
  have hnone : rest.head?.bind token.adjacencyDefect = none := by
    rw [Option.bind_eq_none_iff]
    intro next hhead
    exact Token.adjacencyDefect_eq_none_iff.2 (hnext next hhead)
  rw [Token.openingsIn_concat, Token.closingsIn_concat] at hdepth ⊢
  rw [List.length_append, List.length_singleton]
  rcases token with _ | _ | _ | _ | name <;> simp only [Token.openings, Token.closings] at hdepth ⊢
  all_goals
    simp only [defectFrom, hnone, Bool.false_eq_true, if_true, if_false, Nat.add_zero]
    rw [if_neg (by omega)]
  rw [if_pos (hname name rfl)]

/-- What is wrong with a token is found at its place. -/
theorem defectFrom_of_misplaced (hbefore : closingsIn before ≤ openingsIn before)
    (h : Misplaced rules before token rest e) :
    defectFrom rules (openingsIn before) (closingsIn before) before.length (token :: rest) =
      some e := by
  cases h with
  | unmatchedClosing hcount =>
    rw [Token.openingsIn_concat, Token.closingsIn_concat] at hcount
    simp only [Token.openings, Token.closings] at hcount
    simp only [defectFrom, Bool.false_eq_true, if_true, if_false]
    exact if_pos (by omega)
  | operatorExpected hdepth hcloses hopens =>
    rw [Token.openingsIn_concat, Token.closingsIn_concat] at hdepth
    refine defectFrom_of_adjacencyDefect hdepth ?_
    simp [Token.adjacencyDefect, hcloses, hopens]
  | operandExpected hdepth hcloses hopens =>
    rw [Token.openingsIn_concat, Token.closingsIn_concat] at hdepth
    refine defectFrom_of_adjacencyDefect hdepth ?_
    simp [Token.adjacencyDefect, hcloses, hopens]
  | @badVariable name _ hnext hname =>
    have hnone : rest.head?.bind (Token.var name).adjacencyDefect = none := by
      rw [Option.bind_eq_none_iff]
      intro next hhead
      exact Token.adjacencyDefect_eq_none_iff.2 (hnext next hhead)
    simp only [defectFrom, hnone, hname, Bool.false_eq_true, if_false]
    exact if_neg (by omega)

/-- From a place before which nothing is wrong, the first thing that is wrong is found. -/
theorem defectFrom_eq_some_iff (h : AllInPlace rules before rest) :
    defectFrom rules (openingsIn before) (closingsIn before) before.length rest = some e ↔
      DefectWithin rules (before ++ rest) e := by
  induction rest generalizing before with
  | nil =>
    rw [List.append_nil, defectFrom]
    have hle := h.closingsIn_le
    constructor
    · intro hfound
      split at hfound
      · cases hfound
      · obtain rfl := Option.some.inj hfound
        exact .unbalanced h (by omega)
    · intro hwithin
      cases hwithin with
      | unbalanced _ hlt => exact if_neg (by omega)
      | @misplaced front later token _ _ hmisplaced =>
        have hplace := h front token later rfl
        rw [List.append_nil] at hplace
        exact absurd hplace hmisplaced.not_isInPlace
  | cons token rest ih =>
    -- what has been read is in place, and grows by one token until something is not
    rcases isInPlace_or_misplaced h.closingsIn_le token rest with hplace | ⟨e', hmisplaced⟩
    · rw [defectFrom_of_isInPlace hplace, ih (h.concat hplace), List.append_assoc,
        List.singleton_append]
    · have hfound := defectFrom_of_misplaced h.closingsIn_le hmisplaced
      rw [hfound]
      constructor
      · intro heq
        obtain rfl := Option.some.inj heq
        exact .misplaced h hmisplaced
      · intro hwithin
        -- another report would be of this place, too, or would find nothing wrong at it
        generalize hwhole : before ++ token :: rest = whole at hwithin
        cases hwithin with
        | misplaced h' hmisplaced' =>
          obtain ⟨rfl, rfl, rfl⟩ := eq_of_misplaced h hmisplaced h' hmisplaced' hwhole
          rw [← hfound]
          exact defectFrom_of_misplaced h.closingsIn_le hmisplaced'
        | unbalanced h' _ =>
          have hplace := h' before token rest hwhole.symm
          rw [List.append_nil] at hplace
          exact absurd hplace hmisplaced.not_isInPlace

end Formula

/-! ### Whole texts -/

/-- Tokens that an operand starts and an operand ends. -/
structure EndsWell (tokens : List Token) : Prop where
  start : ∃ first, tokens.head? = some first ∧ first.opensOperand = true
  stop : ∃ last, tokens.getLast? = some last ∧ last.closesOperand = true

/-- What is wrong with the tokens of a text: there are none, or the first one starts no operand, or
else the last one ends none, or else something is wrong along the way. -/
inductive Defect (rules : NameRules) : List Token → FormulaError → Prop
  | empty : Defect rules [] .empty
  | badStart {tokens : List Token} {first : Token} : tokens.head? = some first →
      first.opensOperand = false → Defect rules tokens (.badStart first)
  | badEnd {tokens : List Token} {first last : Token} : tokens.head? = some first →
      first.opensOperand = true → tokens.getLast? = some last → last.closesOperand = false →
      Defect rules tokens (.badEnd last)
  | within {tokens : List Token} {e : FormulaError} : EndsWell tokens →
      DefectWithin rules tokens e → Defect rules tokens e

namespace Formula

variable {rules : NameRules} {tokens : List Token} {first last : Token} {e : FormulaError}

theorem firstDefect_eq (hfirst : tokens.head? = some first) (hlast : tokens.getLast? = some last) :
    firstDefect rules tokens =
      if first.opensOperand = false then some (.badStart first)
      else if last.closesOperand = false then some (.badEnd last)
      else defectFrom rules 0 0 0 tokens := by
  simp only [firstDefect, hfirst, hlast, Bool.not_eq_true']

theorem exists_getLast? (hfirst : tokens.head? = some first) :
    ∃ last, tokens.getLast? = some last := by
  obtain ⟨later, rfl⟩ := List.head?_eq_some_iff.1 hfirst
  exact ⟨_, List.getLast?_eq_some_getLast (List.cons_ne_nil first later)⟩

/-- The first defect of tokens is what is wrong with them. -/
theorem firstDefect_eq_some_iff : firstDefect rules tokens = some e ↔ Defect rules tokens e := by
  have hwithin := defectFrom_eq_some_iff (e := e) (allInPlace_nil rules tokens)
  constructor
  · intro h
    rcases hhead : tokens.head? with _ | first
    · obtain rfl := List.head?_eq_none_iff.1 hhead
      obtain rfl := Option.some.inj h
      exact .empty
    · obtain ⟨last, hlast⟩ := exists_getLast? hhead
      rw [firstDefect_eq hhead hlast] at h
      split at h
      · next hopens =>
        obtain rfl := Option.some.inj h
        exact .badStart hhead hopens
      next hopens =>
      rw [Bool.not_eq_false] at hopens
      split at h
      · next hcloses =>
        obtain rfl := Option.some.inj h
        exact .badEnd hhead hopens hlast hcloses
      · next hcloses =>
        rw [Bool.not_eq_false] at hcloses
        exact .within ⟨⟨first, hhead, hopens⟩, last, hlast, hcloses⟩ (hwithin.1 h)
  · intro h
    cases h with
    | empty => rfl
    | badStart hhead hopens =>
      obtain ⟨last, hlast⟩ := exists_getLast? hhead
      rw [firstDefect_eq hhead hlast, if_pos hopens]
    | badEnd hhead hopens hlast hcloses =>
      rw [firstDefect_eq hhead hlast, if_neg (by simp [hopens]), if_pos hcloses]
    | within hends hdefect =>
      obtain ⟨⟨first, hhead, hopens⟩, last, hlast, hcloses⟩ := hends
      rw [firstDefect_eq hhead hlast, if_neg (by simp [hopens]), if_neg (by simp [hcloses])]
      exact hwithin.2 hdefect

/-- A text is refused for its first defect, and for no other reason.  The longest lexemes are cut
off it as long as there are any; if something else than blanks is left, that is what is wrong with
the text.  Otherwise it is what is wrong with its tokens. -/
theorem parse_eq_error_iff (rules : NameRules) (text : List Char) (e : FormulaError) :
    parse rules text = .error e ↔ ∃ tokens blanks rest,
      (∀ c ∈ blanks, Text.isBlank c = true) ∧ Cuts text tokens (blanks ++ rest) ∧
        (Fails rest e ∨ rest = [] ∧ Defect rules tokens e) := by
  unfold parse
  rw [bind_eq_error_iff]
  constructor
  · rintro (hscan | ⟨tokens, hscan, h⟩)
    · obtain ⟨tokens, blanks, rest, hblanks, hcuts, hfails⟩ := Token.scanAll_eq_error_iff.1 hscan
      exact ⟨tokens, blanks, rest, hblanks, hcuts, .inl hfails⟩
    · obtain ⟨blanks, hblanks, hcuts⟩ := Token.scanAll_eq_ok_iff.1 hscan
      rw [← List.append_nil blanks] at hcuts
      refine ⟨tokens, blanks, [], hblanks, hcuts, .inr ⟨rfl, firstDefect_eq_some_iff.1 ?_⟩⟩
      split at h
      · next defect hdefect =>
        obtain rfl := Except.error.inj h
        exact hdefect
      · cases h
  · rintro ⟨tokens, blanks, rest, hblanks, hcuts, hfails | ⟨rfl, hdefect⟩⟩
    · exact .inl (Token.scanAll_eq_error_iff.2 ⟨tokens, blanks, rest, hblanks, hcuts, hfails⟩)
    · rw [List.append_nil] at hcuts
      refine .inr ⟨tokens, Token.scanAll_eq_ok_iff.2 ⟨blanks, hblanks, hcuts⟩, ?_⟩
      rw [firstDefect_eq_some_iff.2 hdefect]

end Formula

end FormulaSheet
