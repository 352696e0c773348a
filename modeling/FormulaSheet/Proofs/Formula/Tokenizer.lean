/-
The pattern of a token.

A token is given by a pattern with alternatives, of which the first that matches is taken: a
parenthesis, an operator, a name, or a numeral, which is digits and a point, a point and digits, or
digits alone, and then an exponent if there is one.  This takes what comes first and not what is
longest, but nothing is cut off too early by it: digits are followed by what no digit starts, so the
search never gives one back, an exponent is taken wherever there is a whole one, and no two kinds of
tokens start alike.

* **`Token.pattern`** — the pattern of a token;
* **`Token.leaves_numeralPattern`** — the first numeral that is found is the longest;
* **`Token.head?_choices_pattern`** — so is the first token;
* **`Token.scanAll_cuts`** — every text is cut into the longest tokens, or up to the first place
  where there is none.
-/
import FormulaSheet.Proofs.Formula.Cutting
import FormulaSheet.Proofs.Pattern.Preference

namespace FormulaSheet

open Number (Exponent Numeral)
open Pattern (Leaves afterOne afterOptional afterRun)

namespace Token

/-- Digits, so many at least. -/
def digitsPattern (least : Nat) : Pattern :=
  .times (.one Char.isDigit) least none

/-- A decimal point. -/
def pointPattern : Pattern :=
  .one (· == '.')

/-- Digits with a point among or beside them, or without one. -/
def decimalPattern : Pattern :=
  .alt (.seq (digitsPattern 1) (.seq pointPattern (digitsPattern 0)))
    (.alt (.seq pointPattern (digitsPattern 1)) (digitsPattern 1))

/-- An exponent: its marker, perhaps a sign, and digits. -/
def exponentPattern : Pattern :=
  .seq (.one fun c => c == 'e' || c == 'E')
    (.seq (.times (.one fun c => c == '+' || c == '-') 0 (some 1)) (digitsPattern 1))

/-- A numeral. -/
def numeralPattern : Pattern :=
  .seq decimalPattern (.times exponentPattern 0 (some 1))

/-- A name. -/
def namePattern : Pattern :=
  .seq (.one startsName) (.times (.one continuesName) 0 none)

/-- A parenthesis, an operator, a name or a numeral. -/
def anyPattern : Pattern :=
  .alt (.one fun c => c == '(' || c == ')')
    (.alt (.one fun c => c == '+' || c == '-' || c == '*' || c == '/')
      (.alt namePattern numeralPattern))

/-- A token at the start of a text. -/
def pattern : Pattern :=
  .seq .start anyPattern

theorem leaves_digitsPattern (least : Nat) :
    (digitsPattern least).Leaves (afterRun Char.isDigit least some) :=
  Pattern.leaves_run _ _

/-- A sign is dropped, and nothing else. -/
theorem afterOptional_sign (left : List Char → Option (List Char)) (text : List Char) :
    afterOptional (fun c => c == '+' || c == '-') left text = left (Exponent.scanSign text).2 := by
  cases text with
  | nil => rfl
  | cons c rest =>
    rw [afterOptional]
    unfold Exponent.scanSign
    split
    · next hc =>
      rw [Bool.or_eq_true, beq_iff_eq, beq_iff_eq] at hc
      rcases hc with rfl | rfl <;> rfl
    · next hc =>
      rw [Bool.or_eq_true, beq_iff_eq, beq_iff_eq, not_or] at hc
      split
      · next heq => exact absurd (List.cons.inj heq).1 hc.1
      · next heq => exact absurd (List.cons.inj heq).1 hc.2
      · rfl

theorem leaves_exponentPattern :
    exponentPattern.Leaves fun text => (Exponent.scan? text).map Prod.snd := by
  -- a sign is never given back, for no run of digits starts with one
  have hsign : ∀ c rest, (c == '+' || c == '-') = true →
      afterRun Char.isDigit 1 some (c :: rest) = none := by
    intro c rest hc
    rw [Bool.or_eq_true, beq_iff_eq, beq_iff_eq] at hc
    exact Pattern.afterRun_of_stops (Text.stops_cons (by rcases hc with rfl | rfl <;> rfl))
  refine ((leaves_digitsPattern 1).seq_optional hsign).seq_one.congr fun text => ?_
  cases text with
  | nil => rfl
  | cons marker rest =>
    rw [afterOne, Exponent.scan?, afterOptional_sign, Pattern.afterRun_one]
    simp only [Bool.or_eq_true, beq_iff_eq]
    split
    · split <;> rfl
    · rfl

theorem stops_point {text : List Char} (h : ∀ rest, text ≠ '.' :: rest) :
    Text.Stops (· == '.') text := by
  intro c hc
  obtain ⟨rest, rfl⟩ := List.head?_eq_some_iff.1 hc
  rw [beq_eq_false_iff_ne]
  rintro rfl
  exact h rest rfl

section Digits

variable {text rest : List Char}

theorem map_scanDigits?_of_point (h : text.dropWhile Char.isDigit = '.' :: rest) :
    (Numeral.scanDigits? text).map Prod.snd =
      if (text.takeWhile Char.isDigit).isEmpty && (rest.takeWhile Char.isDigit).isEmpty then none
      else some (rest.dropWhile Char.isDigit) := by
  unfold Numeral.scanDigits?
  split
  · next after hafter =>
    obtain rfl := (List.cons.inj (hafter.symm.trans h)).2
    dsimp only
    split <;> rfl
  · next hnone => exact absurd h (hnone rest)

theorem map_scanDigits?_of_no_point (h : ∀ rest, text.dropWhile Char.isDigit ≠ '.' :: rest) :
    (Numeral.scanDigits? text).map Prod.snd =
      if (text.takeWhile Char.isDigit).isEmpty then none
      else some (text.dropWhile Char.isDigit) := by
  unfold Numeral.scanDigits?
  split
  · next rest hrest => exact absurd hrest (h rest)
  · dsimp only
    split <;> rfl

end Digits

theorem leaves_decimalPattern :
    decimalPattern.Leaves fun text => (Numeral.scanDigits? text).map Prod.snd := by
  -- nor does a run of digits give one back to the point that comes after it
  have hdigit : ∀ c tail, Char.isDigit c = true → ∀ rest, c :: tail ≠ '.' :: rest := by
    rintro c tail hc rest h
    obtain ⟨rfl, -⟩ := List.cons.inj h
    cases hc
  have hpoint : ∀ rest c tail, afterOne (· == '.') (afterRun Char.isDigit 0 some) rest = none →
      c.isDigit = true → afterOne (· == '.') (afterRun Char.isDigit 0 some) (c :: tail) = none :=
    fun rest c tail _ hc => Pattern.afterOne_of_stops (stops_point (hdigit c tail hc))
  -- the alternatives with a point: digits before it, or only behind it
  have hbefore : (Pattern.seq (digitsPattern 1) (.seq pointPattern (digitsPattern 0))).Leaves
      (afterRun Char.isDigit 1 (afterOne (· == '.') (afterRun Char.isDigit 0 some))) :=
    (leaves_digitsPattern 0).seq_one.seq_run hpoint
  have hbehind : (Pattern.seq pointPattern (digitsPattern 1)).Leaves
      (afterOne (· == '.') (afterRun Char.isDigit 1 some)) :=
    (leaves_digitsPattern 1).seq_one
  refine (hbefore.alt (hbehind.alt (leaves_digitsPattern 1))).congr fun text => ?_
  have htext := (List.takeWhile_append_dropWhile (p := Char.isDigit) (l := text)).symm
  rw [Pattern.afterRun_one, afterRun]
  -- the scan asks for a point behind the first run of digits, so the cases are its cases
  by_cases hafter : ∃ rest, text.dropWhile Char.isDigit = '.' :: rest
  · obtain ⟨rest, hrest⟩ := hafter
    rw [map_scanDigits?_of_point hrest, hrest]
    cases hwhole : text.takeWhile Char.isDigit with
    | nil =>
      -- without digits before its point, a numeral starts with the point
      rw [hwhole, hrest, List.nil_append] at htext
      rw [htext, if_neg (by simp), Option.none_or, afterOne,
        if_pos (beq_self_eq_true '.'), Pattern.afterRun_one]
      cases rest.takeWhile Char.isDigit <;> rfl
    | cons d digits =>
      -- with digits before the point the first alternative matches, whatever stands behind it
      rw [if_pos (by simp), afterOne, if_pos (beq_self_eq_true '.'), afterRun,
        if_pos (Nat.zero_le _)]
      rfl
  · have hnone := not_exists.1 hafter
    have hstart : ∀ rest, text ≠ '.' :: rest := by
      rintro rest rfl
      exact hnone rest rfl
    rw [map_scanDigits?_of_no_point hnone, Pattern.afterOne_of_stops (stops_point hnone),
      Pattern.afterOne_of_stops (stops_point hstart), ite_self, Option.none_or, Option.none_or]

theorem leaves_numeralPattern :
    numeralPattern.Leaves fun text => (Numeral.scan? text).map Prod.snd := by
  -- an exponent may be left out, so digits are never given back to find one
  have hsome : ∀ rest, (((Exponent.scan? rest).map Prod.snd).or (some rest)).isSome = true := by
    intro rest
    cases Exponent.scan? rest <;> rfl
  refine (leaves_decimalPattern.seq (leaves_exponentPattern.optional rfl) hsome).congr
    fun text => ?_
  rw [Numeral.scan?]
  cases Numeral.scanDigits? text with
  | none => rfl
  | some found =>
    obtain ⟨digits, rest⟩ := found
    dsimp only [Option.map_some, Option.bind_some]
    cases Exponent.scan? rest <;> rfl

theorem leaves_namePattern : namePattern.Leaves
    (afterOne startsName fun rest => some (rest.dropWhile continuesName)) := by
  refine (Pattern.leaves_run continuesName 0).seq_one.congr fun text => ?_
  cases text with
  | nil => rfl
  | cons first rest => rw [afterOne, afterOne, afterRun, if_pos (Nat.zero_le _)]

theorem leaves_anyPattern : anyPattern.Leaves fun text => (Lexeme.scan? text).map Prod.snd := by
  refine ((Pattern.leaves_one _).alt ((Pattern.leaves_one _).alt
    (leaves_namePattern.alt leaves_numeralPattern))).congr fun text => ?_
  cases text with
  | nil => rfl
  | cons first rest =>
    -- no two kinds start alike, so at most one alternative matches
    rw [Lexeme.scan?]
    split
    · next hopening =>
      subst hopening
      rfl
    split
    · next hclosing =>
      subst hclosing
      rfl
    split
    · next o hsymbol =>
      obtain rfl := Operator.ofSymbol?_eq_some_iff.1 hsymbol
      cases o <;> rfl
    · next hopening hclosing _ hsymbol =>
      have hnone : ∀ o : Operator, first ≠ o.symbol := by
        intro o ho
        rw [Operator.ofSymbol?_eq_some_iff.2 ho] at hsymbol
        cases hsymbol
      rw [afterOne, if_neg (by simp [hopening, hclosing]), Option.none_or, afterOne, if_neg,
        Option.none_or, afterOne]
      · split
        · rfl
        · rw [Option.none_or, Option.map_map]
          rfl
      · simpa using ⟨⟨⟨hnone .add, hnone .sub⟩, hnone .mul⟩, hnone .div⟩

/-- The first match of the pattern of a token is the longest lexeme. -/
theorem head?_choices_pattern (text : List Char) : (pattern.choices text 0).head? =
    (Lexeme.scan? text).map fun found => found.1.chars.length := by
  have hleaves := leaves_anyPattern text 0
  rw [List.drop_zero] at hleaves
  rw [pattern, Pattern.choices, show Pattern.choices text .start 0 = [0] from rfl,
    List.flatMap_singleton]
  cases hhead : (anyPattern.choices text 0).head? with
  | none =>
    rw [hhead] at hleaves
    rw [Option.map_eq_none_iff.1 hleaves.symm]
    rfl
  | some j =>
    rw [hhead, Option.map_some] at hleaves
    obtain ⟨⟨lexeme, rest⟩, hscan, hrest⟩ := Option.map_eq_some_iff.1 hleaves.symm
    -- both leave the same, so they end at the same place
    have hmatch := Pattern.mem_choices_iff.1 (List.mem_of_mem_head? hhead)
    have hplace := Pattern.goesForward_matches text anyPattern 0 j hmatch
    have htext := congrArg List.length (Lexeme.isLongest_of_scan? hscan).eq_append
    have hleft := congrArg List.length hrest
    rw [List.length_append] at htext
    rw [List.length_drop] at hleft
    rw [hscan, Option.map_some]
    dsimp only at hleft ⊢
    congr 1
    omega

/-- A text has tokens, or a word of it is unrecognised, or a numeral in it is out of range. -/
theorem scanAll_cases (text : List Char) : (∃ tokens, scanAll text = .ok tokens) ∨
    (∃ bad, scanAll text = .error (.unrecognised bad)) ∨
      ∃ numeral, scanAll text = .error (.outOfRange numeral) := by
  cases h : scanAll text with
  | ok tokens => exact .inl ⟨tokens, rfl⟩
  | error e =>
    obtain ⟨-, -, rest, -, -, hfails⟩ := scanAll_eq_error_iff.1 h
    cases hfails with
    | unrecognised => exact .inr (.inl ⟨_, rfl⟩)
    | outOfRange => exact .inr (.inr ⟨_, rfl⟩)

/-- Every text is cut into tokens from the left, and nothing of it is lost.  It has tokens exactly
if blanks and lexemes, each the longest one of the grammar that starts where it stands, make it up
but for blanks at its end; each token is that of its lexeme.  A word of it is unrecognised exactly
if such lexemes and blanks make up all before this word, no lexeme of the grammar starts where the
word does, and the word goes on to the next blank.  Nothing else can be wrong with a text but a
numeral that is out of range.  What is cut off is what the pattern of a token matches first: where a
lexeme is the longest, the first match ends where it does, and where there is none, there is no
match. -/
theorem scanAll_cuts (text : List Char) :
    (∀ tokens, scanAll text = .ok tokens ↔
      ∃ blanks, (∀ c ∈ blanks, Text.isBlank c = true) ∧ Cuts text tokens blanks) ∧
    (∀ bad, scanAll text = .error (.unrecognised bad) ↔
      ∃ tokens blanks word rest, (∀ c ∈ blanks, Text.isBlank c = true) ∧
        Cuts text tokens (blanks ++ (word ++ rest)) ∧ word ≠ [] ∧
        (∀ c ∈ word, Text.isBlank c = false) ∧
        (∀ c, rest.head? = some c → Text.isBlank c = true) ∧
        (∀ (lexeme : Lexeme) (later : List Char), lexeme.IsSpelled →
          word ++ rest ≠ lexeme.chars ++ later) ∧
        bad = String.ofList word) ∧
    ((∃ tokens, scanAll text = .ok tokens) ∨ (∃ bad, scanAll text = .error (.unrecognised bad)) ∨
      ∃ numeral, scanAll text = .error (.outOfRange numeral)) ∧
    (∀ (lexeme : Lexeme) (rest : List Char), lexeme.IsLongest text rest →
      (pattern.choices text 0).head? = some lexeme.chars.length) ∧
    ((∀ (lexeme : Lexeme) (rest : List Char), lexeme.IsSpelled → text ≠ lexeme.chars ++ rest) →
      pattern.choices text 0 = []) := by
  refine ⟨fun tokens => scanAll_eq_ok_iff, fun bad => ?_, scanAll_cases text, ?_, ?_⟩
  · rw [scanAll_eq_error_iff]
    constructor
    · rintro ⟨tokens, blanks, left, hblanks, hcuts, hfails⟩
      cases hfails with
      | @unrecognised word rest hne hword hrest hnone =>
        exact ⟨tokens, blanks, word, rest, hblanks, hcuts, hne, hword, hrest, hnone, rfl⟩
    · rintro ⟨tokens, blanks, word, rest, hblanks, hcuts, hne, hword, hrest, hnone, rfl⟩
      exact ⟨tokens, blanks, word ++ rest, hblanks, hcuts, .unrecognised hne hword hrest hnone⟩
  · intro lexeme rest hlongest
    rw [head?_choices_pattern, Lexeme.scan?_eq_some_iff.2 hlongest]
    rfl
  · intro hnone
    rw [← List.head?_eq_none_iff, head?_choices_pattern, Lexeme.scan?_eq_none_iff.2 hnone]
    rfl

/-- Forms that are cut off before they are complete: `1..5` is two numerals, and in `1.e+` the
exponent has no digits, so a numeral, a name and an operator are cut off before what is
unrecognised. -/
theorem scanAll_cuts_incomplete :
    (∃ x y, scanAll "1..5".toList = .ok [.number x, .number y]) ∧
    scanAll "1.e+ $b c".toList = .error (.unrecognised "$b") := by
  have hcut : ∀ {text rest left : List Char} {n : Numeral} {tokens : List Token},
      Lexeme.scan? text = some (.numeral n, rest) → n.pattern < Number.Binary64.infinity →
      Cuts rest tokens left →
      Cuts text (.number (Number.ofMagnitude false n.pattern) :: tokens) left :=
    fun hscan hfinite => .lexeme (Lexeme.isLongest_of_scan? hscan) (if_pos hfinite)
  refine ⟨?_, ?_⟩
  · have hcuts : Cuts "1..5".toList _ [] :=
      hcut rfl (by decide +kernel) (hcut rfl (by decide +kernel) (.nil []))
    exact ⟨_, _, ((scanAll_cuts _).1 _).2 ⟨[], List.forall_mem_nil _, hcuts⟩⟩
  · have hname : (Lexeme.name ['e']).IsLongest "e+ $b c".toList "+ $b c".toList :=
      Lexeme.isLongest_of_scan? rfl
    have hadd : (Lexeme.operator .add).IsLongest "+ $b c".toList " $b c".toList :=
      Lexeme.isLongest_of_scan? rfl
    have hcuts : Cuts "1.e+ $b c".toList _ " $b c".toList :=
      hcut rfl (by decide +kernel) (.lexeme hname rfl (.lexeme hadd rfl (.nil _)))
    have hword : ∀ c ∈ ['$', 'b'], Text.isBlank c = false :=
      List.forall_mem_cons.2 ⟨rfl, List.forall_mem_cons.2 ⟨rfl, List.forall_mem_nil _⟩⟩
    exact ((scanAll_cuts _).2.1 _).2 ⟨_, [' '], ['$', 'b'], [' ', 'c'],
      List.forall_mem_cons.2 ⟨rfl, List.forall_mem_nil _⟩, hcuts, List.cons_ne_nil _ _, hword,
      fun c hc => Option.some.inj hc ▸ rfl, Lexeme.scan?_eq_none_iff.1 rfl, rfl⟩

end Token

end FormulaSheet
