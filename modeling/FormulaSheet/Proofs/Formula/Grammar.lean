/-
Which token sequences are expressions.

A token sequence is checked place by place: what follows must fit, and no parenthesis may be
closed before it is opened.  `Fits` says the same as a relation that reads the tokens from the
left, knowing only whether an operand comes next and how many parentheses are open.

* **`firstDefect_eq_none_iff`** — a token sequence has no defect exactly if it fits and its
  variables are accepted;
* **`parse_eq_ok_iff`** — what a text is as a formula;
* **`exists_isSum_iff`** — the token sequences that fit are the sums of the grammar.

That tokens which fit are a sum keeps, for the tokens read so far, the sums and products that wait
at each open parenthesis (`Outer`, `Awaits`, `Follows`); each token extends or closes the innermost
of them.
-/
import FormulaSheet.Formula.Expression

namespace FormulaSheet

/-- Two steps succeed if the first does and then the second. -/
theorem bind_eq_ok_iff {ε α β : Type} {x : Except ε α} {next : α → Except ε β} {b : β} :
    x >>= next = .ok b ↔ ∃ a, x = .ok a ∧ next a = .ok b := by
  constructor
  · intro h
    cases x with
    | error e => cases h
    | ok a => exact ⟨a, rfl, h⟩
  · rintro ⟨a, rfl, h⟩
    exact h

theorem bind_eq_error_iff {ε α β : Type} {x : Except ε α} {next : α → Except ε β} {e : ε} :
    x >>= next = .error e ↔ x = .error e ∨ ∃ a, x = .ok a ∧ next a = .error e := by
  cases x with
  | error e' =>
    show Except.error e' = .error e ↔ _
    simp
  | ok a =>
    show next a = .error e ↔ _
    simp

/-! ### Tokens that fit -/

namespace Token

/-- How many parentheses a token opens. -/
def openings : Token → Nat
  | opening => 1
  | _ => 0

/-- How many parentheses a token closes. -/
def closings : Token → Nat
  | closing => 1
  | _ => 0

end Token

/-- The tokens can be read on from a place where an operand comes next, or else does not, inside
so many parentheses. -/
inductive Fits : (operandNext : Bool) → (depth : Nat) → List Token → Prop
  | done : Fits false 0 []
  | number {depth : Nat} {rest : List Token} (x : Float) :
      Fits false depth rest → Fits true depth (.number x :: rest)
  | var {depth : Nat} {rest : List Token} (name : String) :
      Fits false depth rest → Fits true depth (.var name :: rest)
  | opening {depth : Nat} {rest : List Token} :
      Fits true (depth + 1) rest → Fits true depth (.opening :: rest)
  | operator {depth : Nat} {rest : List Token} (o : Operator) :
      Fits true depth rest → Fits false depth (.operator o :: rest)
  | closing {depth : Nat} {rest : List Token} :
      Fits false depth rest → Fits false (depth + 1) (.closing :: rest)

/-- A token fits if it starts an operand exactly where one comes next and closes a parenthesis
only inside one; the tokens after it have to fit where it leads. -/
theorem fits_cons_iff {operandNext : Bool} {depth : Nat} {token : Token} {rest : List Token} :
    Fits operandNext depth (token :: rest) ↔
      token.opensOperand = operandNext ∧ token.closings ≤ depth ∧
        Fits (!token.closesOperand) (depth + token.openings - token.closings) rest := by
  constructor
  · intro h
    cases h <;> exact ⟨rfl, by simp [Token.closings], ‹_›⟩
  · rintro ⟨rfl, hdepth, hrest⟩
    cases token with
    | number x => exact .number x hrest
    | var name => exact .var name hrest
    | opening => exact .opening hrest
    | operator o => exact .operator o hrest
    | closing =>
      obtain ⟨outer, rfl⟩ : ∃ outer, depth = outer + 1 :=
        ⟨depth - 1, (Nat.sub_add_cancel hdepth).symm⟩
      exact .closing hrest

theorem Fits.map_normalize {operandNext : Bool} {depth : Nat} {tokens : List Token}
    (h : Fits operandNext depth tokens) (rules : NameRules) :
    Fits operandNext depth (tokens.map (Token.normalize rules)) := by
  induction h with
  | done => exact .done
  | number x _ ih => exact .number x ih
  | var name _ ih => exact .var (rules.normalize name) ih
  | opening _ ih => exact .opening ih
  | operator o _ ih => exact .operator o ih
  | closing _ ih => exact .closing ih

/-! ### The check from left to right -/

namespace Token

@[simp] theorem names_nil : names [] = [] := rfl

@[simp] theorem names_cons_var {name : String} {rest : List Token} :
    names (.var name :: rest) = name :: names rest := rfl

theorem names_cons_of_ne_var {token : Token} {rest : List Token}
    (h : ∀ name, token ≠ .var name) : names (token :: rest) = names rest := by
  cases token with
  | var name => exact absurd rfl (h name)
  | _ => rfl

theorem adjacencyDefect_eq_none_iff {token next : Token} :
    token.adjacencyDefect next = none ↔ next.opensOperand = !token.closesOperand := by
  unfold adjacencyDefect
  cases token.closesOperand <;> cases next.opensOperand <;> simp

theorem mem_names_iff {name : String} {tokens : List Token} :
    name ∈ names tokens ↔ .var name ∈ tokens := by
  rw [names, List.mem_filterMap]
  constructor
  · rintro ⟨token, htoken, hname⟩
    cases token with
    | var x =>
      obtain rfl := Option.some.inj hname
      exact htoken
    | _ => simp at hname
  · exact fun h => ⟨_, h, rfl⟩

theorem forall_mem_names_cons_iff {p : String → Prop} {token : Token} {rest : List Token} :
    (∀ name ∈ names (token :: rest), p name) ↔
      (∀ name, token = .var name → p name) ∧ ∀ name ∈ names rest, p name := by
  cases token with
  | var name => simp
  | _ => simp [names_cons_of_ne_var]

theorem names_map_normalize (rules : NameRules) (tokens : List Token) :
    names (tokens.map (normalize rules)) = (names tokens).map rules.normalize := by
  induction tokens with
  | nil => rfl
  | cons token rest ih =>
    cases token with
    | var name => simp [normalize, ih]
    | _ => simpa [normalize, names_cons_of_ne_var] using ih

end Token

namespace Formula

theorem mem_mentions_iff {f : Formula} {name : String} :
    name ∈ f.mentions ↔ .var name ∈ f.tokens := by
  rw [mentions, List.mem_eraseDups, Token.mem_names_iff]

/-- The parts of a check that finds nothing wrong at its first token. -/
theorem defectFrom_cons_eq_none_iff {rules : NameRules} {openings closings position : Nat}
    {token : Token} {rest : List Token} :
    defectFrom rules openings closings position (token :: rest) = none ↔
      closings + token.closings ≤ openings + token.openings ∧
      (∀ next, rest.head? = some next → next.opensOperand = !token.closesOperand) ∧
      (∀ name, token = .var name → rules.accepts (rules.normalize name) = true) ∧
      defectFrom rules (openings + token.openings) (closings + token.closings) (position + 1)
        rest = none := by
  have hhead : rest.head?.bind token.adjacencyDefect = none ↔
      ∀ next, rest.head? = some next → next.opensOperand = !token.closesOperand := by
    cases rest with
    | nil => simp
    | cons next tail => simp [Token.adjacencyDefect_eq_none_iff]
  rw [← hhead]
  cases token <;> simp only [defectFrom, Token.openings, Token.closings] <;>
    cases rest.head?.bind _ <;> simp <;> grind

/-- Checking on finds nothing wrong exactly if the tokens fit and their variables are accepted. -/
theorem defectFrom_eq_none_iff {rules : NameRules} (operandNext : Bool)
    (closings depth position : Nat) {tokens : List Token} :
    (Fits operandNext depth tokens ∧
        ∀ name ∈ Token.names tokens, rules.accepts (rules.normalize name) = true) ↔
      (∀ first, tokens.head? = some first → first.opensOperand = operandNext) ∧
      (tokens = [] → operandNext = false) ∧
      (∀ last, tokens.getLast? = some last → last.closesOperand = true) ∧
      defectFrom rules (closings + depth) closings position tokens = none := by
  induction tokens generalizing operandNext closings depth position with
  | nil =>
    constructor
    · rintro ⟨hfits, -⟩
      cases hfits
      simp [defectFrom]
    · rintro ⟨-, hnext, -, hdefect⟩
      obtain rfl := hnext rfl
      obtain rfl : depth = 0 := by simpa [defectFrom] using hdefect
      exact ⟨.done, by simp⟩
  | cons token rest ih =>
    have hlast : (∀ last, (token :: rest).getLast? = some last → last.closesOperand = true) ↔
        (rest = [] → (!token.closesOperand) = false) ∧
          ∀ last, rest.getLast? = some last → last.closesOperand = true := by
      cases rest with
      | nil => simp
      | cons next tail => simp [List.getLast?_cons_cons]
    rw [fits_cons_iff, Token.forall_mem_names_cons_iff, hlast, defectFrom_cons_eq_none_iff]
    -- where the token leads, the tokens after it are checked with the counts it leaves behind
    have hrest := ih (!token.closesOperand) (closings + token.closings)
      (depth + token.openings - token.closings) (position + 1)
    by_cases hdepth : token.closings ≤ depth
    · have hcount : closings + token.closings + (depth + token.openings - token.closings) =
          closings + depth + token.openings := by omega
      have hle : closings + token.closings ≤ closings + depth + token.openings := by omega
      rw [hcount] at hrest
      simp only [List.head?_cons, Option.some.injEq, forall_eq', hdepth, hle, true_and]
      constructor
      · rintro ⟨⟨hopens, hfits⟩, hname, hnames⟩
        obtain ⟨hhead, hnil, hends, hdefect⟩ := hrest.1 ⟨hfits, hnames⟩
        exact ⟨hopens, by simp, ⟨hnil, hends⟩, hhead, hname, hdefect⟩
      · rintro ⟨hopens, -, ⟨hnil, hends⟩, hhead, hname, hdefect⟩
        obtain ⟨hfits, hnames⟩ := hrest.2 ⟨hhead, hnil, hends, hdefect⟩
        exact ⟨⟨hopens, hfits⟩, hname, hnames⟩
    · -- a closing parenthesis outside all parentheses neither fits nor passes the check
      have hnot : ¬ closings + token.closings ≤ closings + depth + token.openings := by
        cases token <;> simp [Token.closings, Token.openings] at hdepth ⊢
        omega
      simp only [hdepth, hnot, false_and, and_false]

/-- A token sequence has no defect exactly if it fits and its variables are accepted. -/
theorem firstDefect_eq_none_iff {rules : NameRules} {tokens : List Token} :
    firstDefect rules tokens = none ↔
      Fits true 0 tokens ∧
        ∀ name ∈ Token.names tokens, rules.accepts (rules.normalize name) = true := by
  rw [defectFrom_eq_none_iff true 0 0 0]
  cases tokens with
  | nil => simp [firstDefect]
  | cons first rest =>
    obtain ⟨last, hlast⟩ : ∃ last, (first :: rest).getLast? = some last :=
      ⟨_, List.getLast?_eq_some_getLast (by simp)⟩
    rw [hlast]
    unfold firstDefect
    rw [List.head?_cons, hlast]
    cases hfirst : first.opensOperand <;> cases hclose : last.closesOperand <;>
      simp [hfirst, hclose]

/-- What a text is as a formula: the normal forms of tokens that fit and are accepted. -/
theorem parse_eq_ok_iff {rules : NameRules} {text : List Char} {f : Formula} :
    parse rules text = .ok f ↔
      ∃ tokens, Token.scanAll text = .ok tokens ∧ Fits true 0 tokens ∧
        (∀ name ∈ Token.names tokens, rules.accepts (rules.normalize name) = true) ∧
        f = ⟨tokens.map (Token.normalize rules)⟩ := by
  unfold parse
  rw [bind_eq_ok_iff]
  refine exists_congr fun tokens => and_congr_right fun _ => ?_
  rw [← and_assoc, ← firstDefect_eq_none_iff]
  cases firstDefect rules tokens <;> simp [eq_comm]

end Formula

/-! ### From tokens that fit to a tree -/

mutual

/-- Tokens up to a place where a sum begins, inside so many parentheses. -/
inductive Outer : (depth : Nat) → List Token → Prop
  | outermost : Outer 0 []
  | inside {depth : Nat} {tokens : List Token} :
      Awaits depth tokens → Outer (depth + 1) (tokens ++ [.opening])

/-- Tokens up to a place where an operand comes next: at the beginning of a sum, after a sum and
an additive operator, after a product and a multiplicative one, or after all of these. -/
inductive Awaits : (depth : Nat) → List Token → Prop
  | first {depth : Nat} {tokens : List Token} : Outer depth tokens → Awaits depth tokens
  | additive {depth : Nat} {tokens left : List Token} {e : Expr} {o : Operator} :
      Outer depth tokens → IsSum left e → o.isAdditive = true →
      Awaits depth (tokens ++ (left ++ [.operator o]))
  | multiplicative {depth : Nat} {tokens left : List Token} {e : Expr} {o : Operator} :
      Outer depth tokens → IsProduct left e → o.isMultiplicative = true →
      Awaits depth (tokens ++ (left ++ [.operator o]))
  | both {depth : Nat} {tokens left right : List Token} {e e' : Expr} {o o' : Operator} :
      Outer depth tokens → IsSum left e → o.isAdditive = true → IsProduct right e' →
      o'.isMultiplicative = true →
      Awaits depth (tokens ++ (left ++ .operator o :: (right ++ [.operator o'])))

end

/-- Tokens up to a place after an operand: the product that ends there, alone or after a sum and
an additive operator. -/
inductive Follows : (depth : Nat) → List Token → Prop
  | product {depth : Nat} {tokens right : List Token} {e : Expr} :
      Outer depth tokens → IsProduct right e → Follows depth (tokens ++ right)
  | sum {depth : Nat} {tokens left right : List Token} {e e' : Expr} {o : Operator} :
      Outer depth tokens → IsSum left e → o.isAdditive = true → IsProduct right e' →
      Follows depth (tokens ++ (left ++ .operator o :: right))

/-- An operand ends a product wherever an operand comes next. -/
theorem Awaits.operand {depth : Nat} {tokens operand : List Token} {e : Expr}
    (h : Awaits depth tokens) (ho : IsOperand operand e) : Follows depth (tokens ++ operand) := by
  cases h with
  | first houter => exact .product houter (.operand ho)
  | additive houter hsum hadd =>
    simpa using Follows.sum houter hsum hadd (.operand ho)
  | multiplicative houter hproduct hmul =>
    simpa using Follows.product houter (.multiplicative hproduct hmul ho)
  | both houter hsum hadd hproduct hmul =>
    simpa using Follows.sum houter hsum hadd (.multiplicative hproduct hmul ho)

/-- After an operand, everything since the innermost opening parenthesis is a sum. -/
theorem Follows.exists_isSum {depth : Nat} {tokens : List Token} (h : Follows depth tokens) :
    ∃ outer inner e, Outer depth outer ∧ IsSum inner e ∧ tokens = outer ++ inner := by
  cases h with
  | product houter hproduct => exact ⟨_, _, _, houter, .product hproduct, rfl⟩
  | sum houter hsum hadd hproduct => exact ⟨_, _, _, houter, .additive hsum hadd hproduct, rfl⟩

theorem Follows.operator {depth : Nat} {tokens : List Token} (h : Follows depth tokens)
    (o : Operator) : Awaits depth (tokens ++ [.operator o]) := by
  by_cases hadd : o.isAdditive = true
  · -- an additive operator ends the sum before it
    obtain ⟨outer, inner, e, houter, hsum, rfl⟩ := h.exists_isSum
    simpa using Awaits.additive houter hsum hadd
  · -- any other goes on with the last product
    have hmul : o.isMultiplicative = true := by
      cases o <;> simp_all [Operator.isAdditive, Operator.isMultiplicative]
    cases h with
    | product houter hproduct => simpa using Awaits.multiplicative houter hproduct hmul
    | sum houter hsum hadd hproduct => simpa using Awaits.both houter hsum hadd hproduct hmul

theorem Follows.closing {depth : Nat} {tokens : List Token} (h : Follows (depth + 1) tokens) :
    Follows depth (tokens ++ [.closing]) := by
  obtain ⟨outer, inner, e, houter, hsum, rfl⟩ := h.exists_isSum
  -- the sum stands behind an opening parenthesis, so with the closing one it is an operand
  cases houter with
  | inside hawaits => simpa using hawaits.operand (.parenthesised hsum)

/-- What has been read and what still fits after it make a sum. -/
theorem Fits.exists_isSum_append {operandNext : Bool} {depth : Nat} {rest : List Token}
    (h : Fits operandNext depth rest) (tokens : List Token)
    (hread : if operandNext then Awaits depth tokens else Follows depth tokens) :
    ∃ e, IsSum (tokens ++ rest) e := by
  induction h generalizing tokens with
  | done =>
    obtain ⟨outer, inner, e, houter, hsum, rfl⟩ := Follows.exists_isSum hread
    -- no parenthesis is open, so the sum is all that was read
    cases houter
    exact ⟨e, by simpa using hsum⟩
  | number x _ ih =>
    rw [List.append_cons]
    exact ih _ (Awaits.operand hread (.number x))
  | var name _ ih =>
    rw [List.append_cons]
    exact ih _ (Awaits.operand hread (.var name))
  | opening _ ih =>
    rw [List.append_cons]
    exact ih _ (Awaits.first (.inside hread))
  | operator o _ ih =>
    rw [List.append_cons]
    exact ih _ (Follows.operator hread o)
  | closing _ ih =>
    rw [List.append_cons]
    exact ih _ (Follows.closing hread)

theorem Fits.exists_isSum {tokens : List Token} (h : Fits true 0 tokens) :
    ∃ e, IsSum tokens e := by
  simpa using h.exists_isSum_append [] (.first .outermost)

/-! ### From a tree to tokens that fit -/

mutual

/-- The tokens of a sum fit where an operand comes next, before what fits after an operand. -/
theorem IsSum.fits_append {tokens rest : List Token} {e : Expr} {depth : Nat}
    (h : IsSum tokens e) (hrest : Fits false depth rest) : Fits true depth (tokens ++ rest) := by
  cases h with
  | product hproduct => exact hproduct.fits_append hrest
  | additive hsum _ hproduct =>
    rw [List.append_assoc]
    exact hsum.fits_append (.operator _ (hproduct.fits_append hrest))
-- a sum may be one product of the same tokens, and that one operand, so the kinds are ranked
termination_by 3 * tokens.length + 2
decreasing_by all_goals grind

theorem IsProduct.fits_append {tokens rest : List Token} {e : Expr} {depth : Nat}
    (h : IsProduct tokens e) (hrest : Fits false depth rest) :
    Fits true depth (tokens ++ rest) := by
  cases h with
  | operand hoperand => exact hoperand.fits_append hrest
  | multiplicative hproduct _ hoperand =>
    rw [List.append_assoc]
    exact hproduct.fits_append (.operator _ (hoperand.fits_append hrest))
termination_by 3 * tokens.length + 1
decreasing_by all_goals grind

theorem IsOperand.fits_append {tokens rest : List Token} {e : Expr} {depth : Nat}
    (h : IsOperand tokens e) (hrest : Fits false depth rest) :
    Fits true depth (tokens ++ rest) := by
  cases h with
  | number x => exact .number x hrest
  | var name => exact .var name hrest
  | parenthesised hsum =>
    rw [List.append_assoc]
    exact .opening (hsum.fits_append (.closing hrest))
termination_by 3 * tokens.length
decreasing_by grind

end

/-- The sums of the grammar are the tokens that fit. -/
theorem exists_isSum_iff {tokens : List Token} :
    (∃ e, IsSum tokens e) ↔ Fits true 0 tokens := by
  constructor
  · rintro ⟨e, he⟩
    simpa using he.fits_append .done
  · exact Fits.exists_isSum

end FormulaSheet
