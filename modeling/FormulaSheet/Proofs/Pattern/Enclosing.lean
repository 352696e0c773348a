/-
Enclosed patterns.

A pattern that is to match whole names is written into `^(?:` and `)$` as a text, and what comes of
this is read from its start again.  Where the pattern is well formed by itself, it is read as it
was: a scanner that has taken a sign from a text takes the same sign from it with a parenthesis
behind it, and the group that the pattern stands in is closed by the parenthesis behind it, since
all of its own groups are closed before.  Nothing of this is so where the pattern is not well formed
by itself.

The scanners look one character ahead in few places: for a hyphen that makes a range, for a doubled
operation sign, for a `?` after a repetition, and for the name of a class.  A parenthesis is none of
these, and a class that is read has a bracket behind all of its hyphens.

* **`Sign.scan?_append`** — a sign is taken as it was, with a parenthesis behind the text;
* **`Sign.scanAll?_append`** — and so are all signs of a text;
* **`assemble?_append`** — signs are put together as they were, in a group of their own;
* **`read?_enclosed`** — a pattern that is enclosed stands between the start and the finish.
-/
import FormulaSheet.Pattern.Reading

namespace FormulaSheet.Pattern

variable {text rest : List Char}

/-- What is written before a pattern to enclose it. -/
def openingText : List Char := ['^', '(', '?', ':']

/-- What is written behind it. -/
def closingText : List Char := [')', '$']

/-- A text starts as it did, with a parenthesis behind it, where it starts with anything else. -/
theorem exists_of_append_eq_cons {c : Char} {later : List Char} (hc : c ≠ ')')
    (h : text ++ closingText = c :: later) :
    ∃ after, text = c :: after ∧ after ++ closingText = later := by
  match text with
  | [] => exact absurd (List.cons.inj h).1.symm hc
  | d :: after =>
    obtain ⟨rfl, hlater⟩ := List.cons.inj h
    exact ⟨after, rfl, hlater⟩

/-- The cut of a text at a character falls where it fell, with something behind it. -/
theorem cut_append {keep : Char → Bool} {c : Char} (h : text.dropWhile keep = c :: rest)
    (tail : List Char) : (text ++ tail).takeWhile keep = text.takeWhile keep ∧
      (text ++ tail).dropWhile keep = c :: (rest ++ tail) := by
  induction text with
  | nil => cases h
  | cons first later ih =>
    cases hfirst : keep first with
    | true =>
      simp only [List.dropWhile_cons, List.takeWhile_cons, List.cons_append, hfirst, if_true] at h ⊢
      obtain ⟨htake, hdrop⟩ := ih h
      exact ⟨congrArg (first :: ·) htake, hdrop⟩
    -- the cut is here
    | false =>
      simp only [List.dropWhile_cons, List.takeWhile_cons, List.cons_append, hfirst,
        Bool.false_eq_true, if_false, true_and] at h ⊢
      obtain ⟨rfl, rfl⟩ := List.cons.inj h
      rfl

/-- What follows a thing that is read is followed by what is behind the text. -/
theorem map_append {α β : Type} {read : Option α} {f : α → β} {b : β} {after : List Char}
    (h : read.map (fun a => (f a, after)) = some (b, rest)) :
    read.map (fun a => (f a, after ++ closingText)) = some (b, rest ++ closingText) := by
  obtain ⟨a, rfl, heq⟩ := Option.map_eq_some_iff.1 h
  obtain ⟨rfl, rfl⟩ := Prod.mk.inj heq
  rfl

/-! ### Escapes -/

theorem scanEscape?_of_digits {first : Char} {count : Nat} (hlength : hexLength? first = some count)
    (hbrace : ∀ braced, text ≠ '{' :: braced) : scanEscape? (first :: text) =
      if text.length < count then none
      else (Text.charOfHex? (text.take count)).map fun c => (.char c, text.drop count) := by
  unfold scanEscape?
  dsimp only
  rw [hlength]
  split
  · next heq => cases heq
  · next braced _ => exact absurd rfl (hbrace braced)
  · next heq _ =>
    obtain rfl := Option.some.inj heq
    rfl

theorem scanEscape?_append {escape : Escape} (h : scanEscape? text = some (escape, rest)) :
    scanEscape? (text ++ closingText) = some (escape, rest ++ closingText) := by
  match text with
  | [] => cases h
  | first :: later =>
    rw [List.cons_append]
    cases hlength : hexLength? first with
    | none =>
      simp only [scanEscape?, hlength] at h ⊢
      exact map_append h
    | some count =>
      -- the digits stand between braces, or there are as many as the letter says
      by_cases hbrace : ∃ braced, later = '{' :: braced
      · obtain ⟨braced, rfl⟩ := hbrace
        simp only [scanEscape?, hlength, List.cons_append] at h ⊢
        split at h
        · cases h
        · next hdrop =>
          obtain ⟨htake, hdrop⟩ := cut_append hdrop closingText
          rw [hdrop, htake]
          exact map_append h
      · have hnone : ∀ braced, later ++ closingText ≠ '{' :: braced := by
          intro braced heq
          obtain ⟨after, hafter, -⟩ := exists_of_append_eq_cons (by decide) heq
          exact hbrace ⟨after, hafter⟩
        rw [scanEscape?_of_digits hlength fun braced heq => hbrace ⟨braced, heq⟩] at h
        rw [scanEscape?_of_digits hlength hnone]
        split at h
        · cases h
        · next hle =>
          have hlen := Nat.le_of_not_lt hle
          rw [if_neg (by rw [List.length_append]; omega), List.take_append_of_le_length hlen,
            List.drop_append_of_le_length hlen]
          exact map_append h

/-! ### Classes -/

theorem splitCaret_append (text : List Char) : splitCaret (text ++ closingText) =
    ((splitCaret text).1, (splitCaret text).2 ++ closingText) := by
  match text with
  | [] => rfl
  | c :: rest =>
    by_cases hc : c = '^'
    · subst hc
      rfl
    · simp [splitCaret, hc]

theorem scanName?_append (text : List Char) : scanName? (text ++ closingText) =
    (scanName? text).map fun p => (p.1, p.2 ++ closingText) := by
  unfold scanName?
  dsimp only
  rw [splitCaret_append]
  dsimp only
  generalize (splitCaret text).2 = name
  cases hname : name.dropWhile (· ≠ ':') with
  -- without a colon there is no name, and what is behind the text has none
  | nil =>
    rw [List.dropWhile_append, hname]
    rfl
  | cons c after =>
    obtain ⟨htake, hdrop⟩ := cut_append hname closingText
    rw [hdrop, htake]
    by_cases hcolon : c = ':'
    · subst hcolon
      match after with
      | [] => rfl
      | next :: later =>
        by_cases hclose : next = ']'
        · subst hclose
          simp only [List.cons_append, Option.map_map, Function.comp_def]
        · simp [hclose]
    · simp [hcolon]

theorem scanNamed?_append (text : List Char) : scanNamed? (text ++ closingText) =
    (scanNamed? text).map fun p => (p.1, p.2 ++ closingText) := by
  match text with
  | [] => rfl
  | c :: rest =>
    by_cases hc : c = ':'
    · subst hc
      exact scanName?_append rest
    · simp [scanNamed?, hc]

theorem scan_append (text : List Char) : OpenBracket.scan (text ++ closingText) =
    ((OpenBracket.scan text).1, (OpenBracket.scan text).2 ++ closingText) := by
  unfold OpenBracket.scan
  dsimp only
  rw [splitCaret_append]
  dsimp only
  match (splitCaret text).2 with
  | [] => rfl
  | c :: later =>
    by_cases hclose : c = ']'
    · subst hclose
      rfl
    · by_cases hyphen : c = '-'
      · subst hyphen
        -- hyphens end with the text at the latest, for behind it stands a parenthesis
        simp only [List.cons_append, List.dropWhile_append]
        split
        · next hempty =>
          rw [List.isEmpty_iff.1 hempty]
          rfl
        · rfl
      · simp [hclose, hyphen]

theorem scanMember?_append {member : Escape} (h : scanMember? text = some (member, rest)) :
    scanMember? (text ++ closingText) = some (member, rest ++ closingText) := by
  match text with
  | [] => cases h
  | c :: later =>
    by_cases hc : c = '\\'
    · subst hc
      simp only [scanMember?, List.cons_append] at h ⊢
      cases hescape : scanEscape? later with
      | none =>
        rw [hescape] at h
        cases h
      | some p =>
        obtain ⟨escape, after⟩ := p
        rw [hescape] at h
        rw [scanEscape?_append hescape]
        cases escape <;> cases h <;> rfl
    · simp only [scanMember?, List.cons_append] at h ⊢
      cases h
      rfl

/-- The set that a member stands for by itself. -/
def Escape.asSet? : Escape → Option CharSet
  | char c => some (.range c c)
  | set accepts => some (.of accepts)
  | _ => none

/-- The range from a member to the next one that is read, if both are characters. -/
def rangeFrom? : Escape → Option (Escape × List Char) → Option (CharSet × List Char)
  | .char low, some (.char high, rest) => if low ≤ high then some (.range low high, rest) else none
  | _, _ => none

theorem scanRange?_of_hyphen {member : Escape} {next : Char} {later : List Char}
    (h : scanMember? text = some (member, '-' :: next :: later)) : scanRange? text =
      if next = '-' ∨ next = ']' then member.asSet?.map fun set => (set, '-' :: next :: later)
      else rangeFrom? member (scanMember? (next :: later)) := by
  unfold scanRange?
  rw [h]
  cases member with
  | char low =>
    simp only [Escape.asSet?, Option.map_some]
    congr 1
    match scanMember? (next :: later) with
    | none => rfl
    | some (high, rest) => cases high <;> rfl
  | set accepts => rfl
  | _ => simp [Escape.asSet?, rangeFrom?]

theorem scanRange?_of_single {member : Escape} {after : List Char}
    (h : scanMember? text = some (member, after))
    (hsingle : ∀ next later, after ≠ '-' :: next :: later) :
    scanRange? text = member.asSet?.map fun set => (set, after) := by
  unfold scanRange?
  rw [h]
  split
  · next heq => cases heq
  · next heq =>
    cases heq
    exact absurd rfl (hsingle _ _)
  · next heq =>
    cases heq
    rfl
  · next heq =>
    cases heq
    exact absurd rfl (hsingle _ _)
  · next heq =>
    cases heq
    rfl
  · next hchar _ hset heq =>
    cases heq
    cases member with
    | char c => exact absurd rfl (hchar c after)
    | set accepts => exact absurd rfl (hset accepts after)
    | _ => rfl

theorem rangeFrom?_append {member : Escape} {set : CharSet}
    (h : rangeFrom? member (scanMember? text) = some (set, rest)) :
    rangeFrom? member (scanMember? (text ++ closingText)) = some (set, rest ++ closingText) := by
  cases hread : scanMember? text with
  | none =>
    rw [hread] at h
    cases member <;> cases h
  | some p =>
    obtain ⟨high, after⟩ := p
    rw [hread] at h
    rw [scanMember?_append hread]
    cases member with
    | char low =>
      cases high with
      | char high =>
        simp only [rangeFrom?] at h ⊢
        split at h
        · next hle =>
          cases h
          exact if_pos hle
        · cases h
      | _ => cases h
    | _ => cases h

/-- A range is read as it was, if what follows it does not end so soon that what is behind it could
make it a range. -/
theorem scanRange?_append {set : CharSet} (h : scanRange? text = some (set, rest))
    (hhyphen : rest ≠ ['-']) :
    scanRange? (text ++ closingText) = some (set, rest ++ closingText) := by
  cases hmember : scanMember? text with
  | none =>
    unfold scanRange? at h
    rw [hmember] at h
    cases h
  | some p =>
    obtain ⟨member, after⟩ := p
    have hagain := scanMember?_append hmember
    by_cases hdash : ∃ next later, after = '-' :: next :: later
    · obtain ⟨next, later, rfl⟩ := hdash
      rw [scanRange?_of_hyphen hmember] at h
      rw [scanRange?_of_hyphen hagain]
      split at h
      · next hnext => exact (if_pos hnext).trans (map_append h)
      · next hnext => exact (if_neg hnext).trans (rangeFrom?_append h)
    · -- nothing is taken after the member, so what follows it is the whole rest
      have hsingle : ∀ next later, after ≠ '-' :: next :: later := fun next later heq =>
        hdash ⟨next, later, heq⟩
      rw [scanRange?_of_single hmember hsingle] at h
      obtain ⟨_, _, hrest⟩ := Option.map_eq_some_iff.1 h
      obtain rfl := (Prod.mk.inj hrest).2
      rw [scanRange?_of_single hagain]
      · exact map_append h
      · intro next later heq
        obtain ⟨more, rfl, -⟩ := exists_of_append_eq_cons (by decide) heq
        -- the hyphen before what is behind the text would be all that is left
        match more with
        | [] => exact hhyphen rfl
        | d :: more => exact hsingle d more rfl

section Class

variable {inner : OpenBracket} {outer : List OpenBracket} {set : CharSet} {first : Char}
  {after : List Char}

theorem scanClassFrom?_named (h : scanNamed? text = some (set, after)) :
    scanClassFrom? inner outer ('[' :: text) = scanClassFrom? (inner.join set) outer after := by
  rw [scanClassFrom?]
  split
  · next hsome =>
    cases h.symm.trans hsome
    rfl
  · next hnone => cases h.symm.trans hnone

theorem scanClassFrom?_open (h : scanNamed? text = none) :
    scanClassFrom? inner outer ('[' :: text) =
      scanClassFrom? (OpenBracket.scan text).1 (inner :: outer) (OpenBracket.scan text).2 := by
  rw [scanClassFrom?]
  split
  · next hsome => cases h.symm.trans hsome
  · rfl

/-- The operation that a character stands for, if it is doubled. -/
def doubled? (first : Char) (text : List Char) : Option SetOperation :=
  if text.head? = some first then SetOperation.ofChar? first else none

theorem scanClassFrom?_operation {operation : SetOperation} (hclose : first ≠ ']')
    (hopen : first ≠ '[') (h : doubled? first text = some operation) :
    scanClassFrom? inner outer (first :: text) =
      scanClassFrom? (inner.operate operation) outer (text.drop 1) := by
  unfold doubled? at h
  rw [scanClassFrom?, h]
  · exact hclose
  · exact hopen

theorem scanClassFrom?_range (hclose : first ≠ ']') (hopen : first ≠ '[')
    (hnone : doubled? first text = none) (h : scanRange? (first :: text) = some (set, after)) :
    scanClassFrom? inner outer (first :: text) =
      scanClassFrom? (inner.join set) outer after := by
  unfold doubled? at hnone
  rw [scanClassFrom?, hnone]
  · dsimp only
    split
    · next hsome =>
      cases h.symm.trans hsome
      rfl
    · next heq => cases h.symm.trans heq
  · exact hclose
  · exact hopen

/-- What is behind a text does not double a character before it. -/
theorem doubled?_append (htext : text ≠ []) (first : Char) :
    doubled? first (text ++ closingText) = doubled? first text := by
  match text with
  | [] => exact absurd rfl htext
  | c :: more => rfl

/-- A class that is read does not end where the text ends, nor at a hyphen there. -/
theorem ne_of_scanClassFrom? (h : scanClassFrom? inner outer text = some (set, rest)) :
    text ≠ [] ∧ text ≠ ['-'] := by
  have hempty : ∀ inner : OpenBracket, scanClassFrom? inner outer [] = none := by
    intro inner
    rw [scanClassFrom?]
  refine ⟨?_, ?_⟩
  · rintro rfl
    rw [hempty] at h
    cases h
  · rintro rfl
    -- a hyphen alone is a member, behind which the text is at its end
    have hrange : scanRange? ['-'] = some (.range '-' '-', []) := rfl
    rw [scanClassFrom?_range (by decide) (by decide) rfl hrange, hempty] at h
    cases h

/-- A class is read as it was, with something behind the text. -/
theorem scanClassFrom?_append (h : scanClassFrom? inner outer text = some (set, rest)) :
    scanClassFrom? inner outer (text ++ closingText) = some (set, rest ++ closingText) := by
  fun_induction scanClassFrom? inner outer text with
  | case1 => cases h
  | case2 inner after =>
    cases h
    rw [List.cons_append, scanClassFrom?]
  | case3 inner after next outer ih =>
    rw [List.cons_append, scanClassFrom?]
    exact ih h
  | case4 inner outer later named after hnamed _ ih =>
    have hagain : scanNamed? (later ++ closingText) = some (named, after ++ closingText) := by
      rw [scanNamed?_append, hnamed]
      rfl
    rw [List.cons_append, scanClassFrom?_named hagain]
    exact ih h
  | case5 inner outer later hnamed opened _ ih =>
    have hagain : scanNamed? (later ++ closingText) = none := by
      rw [scanNamed?_append, hnamed]
      rfl
    rw [List.cons_append, scanClassFrom?_open hagain, scan_append]
    exact ih h
  | case6 inner outer first later hclose hopen operation hoperation _ ih =>
    have hdoubled : doubled? first later = some operation := hoperation
    have hlater : later ≠ [] := by
      rintro rfl
      cases hdoubled
    rw [List.cons_append, scanClassFrom?_operation hclose hopen
      (by rw [doubled?_append hlater, hdoubled])]
    match later with
    | [] => exact absurd rfl hlater
    | c :: more => exact ih h
  | case7 inner outer first later hclose hopen hnone range after hrange hlt ih =>
    have hdoubled : doubled? first later = none := hnone
    -- a class is still to be read behind the range, so something is left that is no lone hyphen
    obtain ⟨hafter, hhyphen⟩ := ne_of_scanClassFrom? h
    have hlater : later ≠ [] := by
      rintro rfl
      have hpos := List.length_pos_iff.2 hafter
      rw [List.length_singleton] at hlt
      omega
    have hagain := scanRange?_append hrange hhyphen
    rw [List.cons_append] at hagain ⊢
    rw [scanClassFrom?_range hclose hopen (by rw [doubled?_append hlater, hdoubled]) hagain]
    exact ih h
  | case8 => cases h

theorem scanBracket?_append (h : scanBracket? text = some (set, rest)) :
    scanBracket? (text ++ closingText) = some (set, rest ++ closingText) := by
  unfold scanBracket? at h ⊢
  dsimp only at h ⊢
  rw [scan_append]
  exact scanClassFrom?_append h

end Class

/-! ### Signs -/

namespace Sign

variable {sign : Sign}

theorem scanGroupName?_append (h : scanGroupName? text = some (sign, rest)) :
    scanGroupName? (text ++ closingText) = some (sign, rest ++ closingText) := by
  unfold scanGroupName? at h ⊢
  dsimp only at h ⊢
  split at h
  · next hdrop =>
    obtain ⟨htake, hdrop⟩ := cut_append hdrop closingText
    rw [hdrop, htake]
    split at h
    · next hname =>
      cases h
      exact if_pos hname
    · cases h
  · cases h

theorem scanFlags?_append (h : scanFlags? text = some (sign, rest)) :
    scanFlags? (text ++ closingText) = some (sign, rest ++ closingText) := by
  unfold scanFlags? at h ⊢
  dsimp only at h ⊢
  split at h
  · next hdrop =>
    obtain ⟨htake, hdrop⟩ := cut_append hdrop closingText
    rw [hdrop, htake]
    split at h
    · next hempty =>
      cases h
      exact if_pos hempty
    · next hempty => exact (if_neg hempty).trans (map_append h)
  · next hdrop =>
    obtain ⟨htake, hdrop⟩ := cut_append hdrop closingText
    rw [hdrop, htake]
    exact map_append h
  · cases h

theorem scanGroup?_of_plain (h : ∀ body, text ≠ '?' :: body) :
    scanGroup? text = some (opening none none, text) := by
  unfold scanGroup?
  split
  · exact absurd rfl (h _)
  · exact absurd rfl (h _)
  · exact absurd rfl (h _)
  · rfl

theorem scanGroup?_of_flags (hlong : ∀ name, text ≠ 'P' :: '<' :: name)
    (hshort : ∀ name, text ≠ '<' :: name) : scanGroup? ('?' :: text) = scanFlags? text := by
  unfold scanGroup?
  split
  · next heq => exact absurd (List.cons.inj heq).2 (hlong _)
  · next heq => exact absurd (List.cons.inj heq).2 (hshort _)
  · next heq => rw [(List.cons.inj heq).2]
  · next hno => exact absurd rfl (hno _)

theorem scanGroup?_append (h : scanGroup? text = some (sign, rest)) :
    scanGroup? (text ++ closingText) = some (sign, rest ++ closingText) := by
  unfold scanGroup? at h
  split at h
  · exact scanGroupName?_append h
  · exact scanGroupName?_append h
  · next body hlong hshort =>
    -- a parenthesis does not make a group name of what was none
    rw [List.cons_append, scanGroup?_of_flags]
    · exact scanFlags?_append h
    · intro name heq
      obtain ⟨after, rfl, hafter⟩ := exists_of_append_eq_cons (by decide) heq
      obtain ⟨more, rfl, -⟩ := exists_of_append_eq_cons (by decide) hafter
      exact hlong _ rfl
    · intro name heq
      obtain ⟨after, rfl, -⟩ := exists_of_append_eq_cons (by decide) heq
      exact hshort _ rfl
  · next hplain =>
    cases h
    refine scanGroup?_of_plain fun body heq => ?_
    obtain ⟨after, hafter, -⟩ := exists_of_append_eq_cons (by decide) heq
    exact hplain _ hafter

theorem scanBounds?_append (h : scanBounds? text = some (sign, rest)) :
    scanBounds? (text ++ closingText) = some (sign, rest ++ closingText) := by
  unfold scanBounds? at h ⊢
  split at h
  · next hdrop =>
    obtain ⟨htake, hdrop⟩ := cut_append hdrop closingText
    rw [hdrop, htake]
    exact map_append h
  · cases h

theorem lazily_append {result result' : Option (Sign × List Char)}
    (hresult : ∀ s r, result = some (s, r) → result' = some (s, r ++ closingText))
    (h : lazily result = some (sign, rest)) :
    lazily result' = some (sign, rest ++ closingText) := by
  obtain ⟨⟨s, r⟩, hr, heq⟩ := Option.map_eq_some_iff.1 h
  obtain ⟨rfl, rfl⟩ := Prod.mk.inj heq
  rw [hresult s r hr]
  -- the `?` would be the next character, and a parenthesis is none
  match r with
  | [] => rfl
  | c :: more =>
    by_cases hc : c = '?'
    · subst hc
      rfl
    · simp [lazily, hc]

theorem scan?_append (h : scan? text = some (sign, rest)) :
    scan? (text ++ closingText) = some (sign, rest ++ closingText) := by
  match text with
  | [] => cases h
  | first :: later =>
    rw [List.cons_append]
    unfold scan? at h ⊢
    dsimp only at h ⊢
    split at h
    · obtain ⟨⟨escape, after⟩, hescape, heq⟩ := Option.map_eq_some_iff.1 h
      cases heq
      rw [scanEscape?_append hescape]
      rfl
    · obtain ⟨⟨set, after⟩, hset, heq⟩ := Option.map_eq_some_iff.1 h
      cases heq
      rw [scanBracket?_append hset]
      rfl
    · exact scanGroup?_append h
    · exact lazily_append (fun s r hr => scanBounds?_append hr) h
    -- repetitions that are no bounds look for a `?` too, and the other signs are one character
    all_goals first
      | exact lazily_append (fun s r hr => by cases hr; rfl) h
      | (cases h; rfl)

theorem scanAll?_of_scan? (h : scan? text = some (sign, rest)) :
    scanAll? text = (scanAll? rest).map (sign :: ·) := by
  rw [scanAll?]
  split
  · next hempty =>
    rw [List.isEmpty_iff.1 hempty] at h
    cases h
  · split
    · next hnone => cases h.symm.trans hnone
    · next hsome =>
      cases h.symm.trans hsome
      rfl

theorem scanAll?_closingText : scanAll? closingText = some [closing, finish] := by
  have hclosing : scan? closingText = some (closing, ['$']) := rfl
  have hfinish : scan? ['$'] = some (finish, []) := rfl
  have hempty : scanAll? [] = some [] := by
    rw [scanAll?]
    rfl
  rw [scanAll?_of_scan? hclosing, scanAll?_of_scan? hfinish, hempty]
  rfl

/-- The signs of a text are read as they were, and after them those behind it. -/
theorem scanAll?_append {signs : List Sign} (h : scanAll? text = some signs) :
    scanAll? (text ++ closingText) = some (signs ++ [closing, finish]) := by
  fun_induction scanAll? text generalizing signs with
  | case1 text hempty =>
    cases h
    rw [List.isEmpty_iff.1 hempty]
    exact scanAll?_closingText
  | case2 text hnonempty hscan => cases h
  | case3 text hnonempty sign rest hscan ih =>
    obtain ⟨later, hlater, rfl⟩ := Option.map_eq_some_iff.1 h
    rw [scanAll?_of_scan? (scan?_append hscan), ih hlater]
    rfl

/-- Before them stand those that open the group. -/
theorem scanAll?_openingText_append (text : List Char) : scanAll? (openingText ++ text) =
    (scanAll? text).map fun signs => start :: opening none none :: signs := by
  have hstart : scan? (openingText ++ text) = some (start, ['(', '?', ':'] ++ text) := rfl
  have hopening : scan? (['(', '?', ':'] ++ text) = some (opening none none, text) := rfl
  rw [scanAll?_of_scan? hstart, scanAll?_of_scan? hopening, Option.map_map]
  rfl

end Sign

/-! ### Putting together -/

/-- Signs are put together as they were, in a group that is closed behind them. -/
theorem assemble?_append {names : List (List Char)} {caseless : Bool} {inner : OpenGroup}
    {outer : List OpenGroup} {signs : List Sign} {p : Pattern}
    (h : assemble? names caseless inner outer signs = some p) (around : OpenGroup) :
    assemble? names caseless inner (outer ++ [around]) (signs ++ [.closing, .finish]) =
      some ((around.add (some p)).add (some .finish)).close := by
  induction signs generalizing names caseless inner outer with
  -- all groups of the signs are closed, so what is behind them closes the one around
  | nil =>
    match outer with
    | [] =>
      obtain rfl := Option.some.inj h
      rfl
    | next :: outer => cases h
  | cons sign rest ih =>
    rw [List.cons_append]
    cases sign with
    | repetition least most =>
      unfold assemble? at h ⊢
      dsimp only at h ⊢
      cases hrepeated : inner.repeated? least most with
      | none =>
        rw [hrepeated] at h
        cases h
      | some repeated =>
        rw [hrepeated] at h
        exact ih h
    | opening name change =>
      unfold assemble? at h ⊢
      dsimp only at h ⊢
      split at h
      · cases h
      · next hfresh =>
        rw [if_neg hfresh]
        exact ih h
    | closing =>
      match outer with
      | [] => cases h
      | next :: outer => exact ih h
    | _ => exact ih h

/-- A pattern that is enclosed stands between the start and the finish. -/
theorem read?_enclosed {p : Pattern} (h : read? text = some p) :
    read? (openingText ++ (text ++ closingText)) =
      some (seq .start (seq p (seq .finish .empty))) := by
  obtain ⟨signs, hsigns, hp⟩ := Option.bind_eq_some_iff.1 h
  rw [read?, Sign.scanAll?_openingText_append, Sign.scanAll?_append hsigns]
  exact assemble?_append hp ⟨false, [], [some .start]⟩

end FormulaSheet.Pattern
