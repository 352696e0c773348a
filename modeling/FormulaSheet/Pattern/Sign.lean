/-
The signs of a written pattern.

A written pattern is cut into signs before its structure is looked at: characters that stand
for themselves, classes, places, bars, repetitions, and the parentheses of groups, which may
name a group or say whether case counts in it.  Look-around is no sign.

Some signs of common patterns are left out, and a text with one of them is not read: the flag `x`,
under which blanks and comments may stand between signs, and names of groups with letters beyond
ASCII.  The flag `u` is read but never looked at, so a pattern that takes it back is not asked what
it could match outside ASCII.

* **`Sign.scan?`** — the sign at the start of a text, and what follows it;
* **`Sign.scanAll?`** — all signs of a text.
-/
import FormulaSheet.Pattern.Bracket

namespace FormulaSheet.Pattern

/-- A sign of a written pattern. -/
inductive Sign where
  /-- One character of a set. -/
  | set (s : CharSet)
  | start
  | finish
  | wordEdge (negated : Bool)
  /-- The start of a group, with its name and whether case counts in it, if it says so. -/
  | opening (name : Option (List Char)) (caseless : Option Bool)
  | closing
  | bar
  | repetition (least : Nat) (most : Option Nat)
  /-- From here to the end of the group, whether case counts, if it says so. -/
  | flags (caseless : Option Bool)

namespace Sign

/-- The sign of what stands after a backslash. -/
def ofEscape : Escape → Sign
  | .char c => set (.range c c)
  | .set accepts => set (.of accepts)
  | .start => start
  | .finish => finish
  | .wordEdge negated => wordEdge negated

/-- The flags of a group: letters, at most one `-` before the ones that are taken back, and no
letter twice.  Of the letters only `i` matters to names, which are one line of ASCII. -/
def caselessOf? (letters : List Char) : Option (Option Bool) :=
  let given := letters.takeWhile (· ≠ '-')
  let taken := (letters.dropWhile (· ≠ '-')).drop 1
  let all := given ++ taken
  if all.all (['i', 'm', 's', 'U', 'u', 'R'].contains ·) && all.eraseDups == all
      && !letters.isEmpty && letters.getLast? != some '-' then
    some (if given.contains 'i' then some true else if taken.contains 'i' then some false else none)
  else none

/-- Whether a text names a group. -/
def isGroupName : List Char → Bool
  | [] => false
  | first :: rest =>
    (first.isAlpha || first == '_') &&
      rest.all fun c => c.isAlphanum || c == '_' || c == '.' || c == '[' || c == ']'

/-- The name of a group, after `<`, and what follows `>`. -/
def scanGroupName? (text : List Char) : Option (Sign × List Char) :=
  let name := text.takeWhile (· ≠ '>')
  match text.dropWhile (· ≠ '>') with
  | _ :: rest => if isGroupName name then some (opening (some name) none, rest) else none
  | [] => none

/-- Flags, or a group with flags, after `(?`, and what follows. -/
def scanFlags? (text : List Char) : Option (Sign × List Char) :=
  let letters := text.takeWhile fun c => c ≠ ':' && c ≠ ')'
  match text.dropWhile fun c => c ≠ ':' && c ≠ ')' with
  | ':' :: rest =>
    if letters.isEmpty then some (opening none none, rest)
    else (caselessOf? letters).map fun caseless => (opening none caseless, rest)
  | ')' :: rest => (caselessOf? letters).map fun caseless => (flags caseless, rest)
  | _ => none

/-- The start of a group, after its parenthesis, and what follows. -/
def scanGroup? : List Char → Option (Sign × List Char)
  | '?' :: 'P' :: '<' :: rest => scanGroupName? rest
  | '?' :: '<' :: rest => scanGroupName? rest
  | '?' :: rest => scanFlags? rest
  | rest => some (opening none none, rest)

/-- A repetition count: digits, with blanks around them. -/
def countOf? (text : List Char) : Option Nat :=
  let digits := Text.trim text
  let count := Nat.ofDigitChars 10 digits 0
  if !digits.isEmpty && digits.all Char.isDigit && count < UInt32.size then some count else none

/-- The bounds between braces.  Blanks may stand around a count, but not in its place. -/
def boundsOf? (text : List Char) : Option Sign := do
  let least ← countOf? (text.takeWhile (· ≠ ','))
  match text.dropWhile (· ≠ ',') with
  | [] => return repetition least (some least)
  | [_] => return repetition least none
  | _ :: rest =>
    let most ← countOf? rest
    if least ≤ most then return repetition least (some most) else none

/-- Bounds, after `{`, and what follows `}`. -/
def scanBounds? (text : List Char) : Option (Sign × List Char) :=
  match text.dropWhile (· ≠ '}') with
  | _ :: rest => (boundsOf? (text.takeWhile (· ≠ '}'))).map (·, rest)
  | [] => none

/-- A repetition and what follows it, without the mark that makes it take as little as it can;
how much a repetition takes first does not change what is found. -/
def lazily (result : Option (Sign × List Char)) : Option (Sign × List Char) :=
  result.map fun (sign, rest) => (sign, if rest.head? = some '?' then rest.drop 1 else rest)

/-- The sign at the start of a text, and what follows it. -/
def scan? : List Char → Option (Sign × List Char)
  | [] => none
  | first :: rest =>
    match first with
    | '\\' => (scanEscape? rest).map fun (escape, rest) => (ofEscape escape, rest)
    | '[' => (scanBracket? rest).map fun (s, rest) => (set s, rest)
    | '(' => scanGroup? rest
    | '{' => lazily (scanBounds? rest)
    | '*' => lazily (some (repetition 0 none, rest))
    | '+' => lazily (some (repetition 1 none, rest))
    | '?' => lazily (some (repetition 0 (some 1), rest))
    | ')' => some (closing, rest)
    | '|' => some (bar, rest)
    | '.' => some (set (.of (· ≠ '\n')), rest)
    | '^' => some (start, rest)
    | '$' => some (finish, rest)
    | c => some (set (.range c c), rest)

/-- The rest of a text after the first character of some kind is shorter. -/
theorem length_lt_of_dropWhile_eq_cons {keep : Char → Bool} {text rest : List Char} {c : Char}
    (h : text.dropWhile keep = c :: rest) : rest.length < text.length := by
  have := (List.dropWhile_sublist keep (l := text)).length_le
  rw [h, List.length_cons] at this
  omega

/-- The start of a group takes no character back. -/
theorem length_le_of_scanGroup? {text rest : List Char} {sign : Sign}
    (h : scanGroup? text = some (sign, rest)) : rest.length ≤ text.length := by
  have hname : ∀ {body : List Char}, scanGroupName? body = some (sign, rest) →
      rest.length < body.length := by
    intro body h
    simp only [scanGroupName?] at h
    split at h
    · next hdrop =>
      split at h <;> simp at h
      rw [← h.2]
      exact length_lt_of_dropWhile_eq_cons hdrop
    · simp at h
  unfold scanGroup? at h
  split at h
  · have := hname h
    simp only [List.length_cons]
    omega
  · have := hname h
    simp only [List.length_cons]
    omega
  · next body _ _ =>
    simp only [scanFlags?] at h
    split at h
    · next hdrop =>
      have := length_lt_of_dropWhile_eq_cons hdrop
      split at h
      · simp at h
        rw [← h.2, List.length_cons]
        omega
      · obtain ⟨_, _, heq⟩ := Option.map_eq_some_iff.1 h
        simp at heq
        rw [← heq.2, List.length_cons]
        omega
    · next hdrop =>
      have := length_lt_of_dropWhile_eq_cons hdrop
      obtain ⟨_, _, heq⟩ := Option.map_eq_some_iff.1 h
      simp at heq
      rw [← heq.2, List.length_cons]
      omega
    · simp at h
  · simp at h
    simp [← h.2]

/-- A repetition takes no character back. -/
theorem length_le_of_lazily {result : Option (Sign × List Char)} {rest : List Char} {sign : Sign}
    {bound : Nat} (hresult : ∀ s r, result = some (s, r) → r.length ≤ bound)
    (h : lazily result = some (sign, rest)) : rest.length ≤ bound := by
  obtain ⟨⟨s, r⟩, hr, heq⟩ := Option.map_eq_some_iff.1 h
  have hle := hresult s r hr
  simp only [Prod.mk.injEq] at heq
  rw [← heq.2]
  split
  · rw [List.length_drop]
    omega
  · exact hle

/-- A sign takes at least one character. -/
theorem length_lt_of_scan? {text rest : List Char} {sign : Sign}
    (h : scan? text = some (sign, rest)) : rest.length < text.length := by
  cases text with
  | nil => simp [scan?] at h
  | cons first tail =>
    rw [List.length_cons, Nat.lt_succ_iff]
    simp only [scan?] at h
    split at h
    · obtain ⟨⟨_, _⟩, hscan, heq⟩ := Option.map_eq_some_iff.1 h
      simp only [Prod.mk.injEq] at heq
      exact heq.2 ▸ Nat.le_of_lt (length_lt_of_scanEscape? hscan)
    · obtain ⟨⟨_, _⟩, hscan, heq⟩ := Option.map_eq_some_iff.1 h
      simp only [Prod.mk.injEq] at heq
      exact heq.2 ▸ length_le_of_scanBracket? hscan
    · exact length_le_of_scanGroup? h
    · refine length_le_of_lazily (fun s r hr => ?_) h
      simp only [scanBounds?] at hr
      split at hr
      · next hdrop =>
        obtain ⟨_, _, heq⟩ := Option.map_eq_some_iff.1 hr
        simp only [Prod.mk.injEq] at heq
        exact heq.2 ▸ Nat.le_of_lt (length_lt_of_dropWhile_eq_cons hdrop)
      · simp at hr
    all_goals first
      | exact length_le_of_lazily (fun s r hr => by simp at hr; simp [← hr.2]) h
      | (simp at h; simp [← h.2])

/-- All signs of a text. -/
def scanAll? (text : List Char) : Option (List Sign) :=
  if text.isEmpty then some []
  else match _hscan : scan? text with
    | none => none
    | some (sign, rest) => (scanAll? rest).map (sign :: ·)
termination_by text.length
decreasing_by exact length_lt_of_scan? _hscan

end Sign

end FormulaSheet.Pattern
