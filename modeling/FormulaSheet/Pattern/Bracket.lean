/-
Classes between brackets.

A class stands between square brackets: single characters, ranges, classes of their own such as
`\d` or `[:alpha:]`, and nested brackets, all joined; `&&`, `--` and `~~` between them intersect,
subtract and tell apart what stands on either side.  A `^` at the start takes the complement.

* **`scanRange?`** — a range or a single member, and what follows;
* **`scanBracket?`** — the class at the start of a text, after its bracket, and what follows.
-/
import FormulaSheet.Pattern.CharSet
import FormulaSheet.Pattern.Escape

namespace FormulaSheet.Pattern

/-- Whether a text starts with a caret, and the text without it. -/
def splitCaret : List Char → Bool × List Char
  | '^' :: rest => (true, rest)
  | text => (false, text)

/-- Dropping a caret never lengthens a text. -/
theorem length_splitCaret_le (text : List Char) : (splitCaret text).2.length ≤ text.length := by
  unfold splitCaret
  split <;> simp

/-- The class with a name at the start of a text, after `[:`, and what follows `:]`. -/
def scanName? (text : List Char) : Option (CharSet × List Char) :=
  let name := (splitCaret text).2
  match name.dropWhile (· ≠ ':') with
  | ':' :: ']' :: rest =>
    (namedSet? (String.ofList (name.takeWhile (· ≠ ':')))).map fun accepts =>
      (if (splitCaret text).1 then (CharSet.of accepts).complement else .of accepts, rest)
  | _ => none

/-- A class with a name takes at least one character. -/
theorem length_lt_of_scanName? {text rest : List Char} {set : CharSet}
    (h : scanName? text = some (set, rest)) : rest.length < text.length := by
  have hcaret := length_splitCaret_le text
  have hdrop := (List.dropWhile_sublist (· ≠ ':') (l := (splitCaret text).2)).length_le
  simp only [scanName?] at h
  split at h
  · next hname =>
    rw [hname] at hdrop
    obtain ⟨_, _, heq⟩ := Option.map_eq_some_iff.1 h
    simp only [Prod.mk.injEq] at heq
    simp only [List.length_cons] at hdrop
    rw [← heq.2]
    omega
  · simp at h

/-- The class with a name at the start of a text, after `[`, and what follows `:]`. -/
def scanNamed? : List Char → Option (CharSet × List Char)
  | ':' :: rest => scanName? rest
  | _ => none

/-- A class with a name takes at least one character. -/
theorem length_lt_of_scanNamed? {text rest : List Char} {set : CharSet}
    (h : scanNamed? text = some (set, rest)) : rest.length < text.length := by
  unfold scanNamed? at h
  split at h
  · exact Nat.lt_succ_of_lt (length_lt_of_scanName? h)
  · simp at h

/-- A single character or a class between brackets, and what follows. -/
def scanMember? : List Char → Option (Escape × List Char)
  | [] => none
  | '\\' :: rest =>
    match scanEscape? rest with
    | some (.char c, rest) => some (.char c, rest)
    | some (.set accepts, rest) => some (.set accepts, rest)
    | _ => none
  | c :: rest => some (.char c, rest)

/-- A member takes at least one character. -/
theorem length_lt_of_scanMember? {text rest : List Char} {member : Escape}
    (h : scanMember? text = some (member, rest)) : rest.length < text.length := by
  unfold scanMember? at h
  split at h
  · simp at h
  · split at h
    · next hscan =>
      have := length_lt_of_scanEscape? hscan
      simp at h
      rw [← h.2]
      simp only [List.length_cons]
      omega
    · next hscan =>
      have := length_lt_of_scanEscape? hscan
      simp at h
      rw [← h.2]
      simp only [List.length_cons]
      omega
    · simp at h
  · simp at h
    simp [← h.2]

/-- A range, or a member alone, and what follows.  A `-` before another `-` or before the
closing bracket makes no range. -/
def scanRange? (text : List Char) : Option (CharSet × List Char) :=
  match scanMember? text with
  | none => none
  | some (.char low, '-' :: next :: rest) =>
    if next = '-' ∨ next = ']' then some (.range low low, '-' :: next :: rest)
    else match scanMember? (next :: rest) with
      | some (.char high, rest) => if low ≤ high then some (.range low high, rest) else none
      | _ => none
  | some (.char c, rest) => some (.range c c, rest)
  | some (.set accepts, '-' :: next :: rest) =>
    if next = '-' ∨ next = ']' then some (.of accepts, '-' :: next :: rest) else none
  | some (.set accepts, rest) => some (.of accepts, rest)
  | some _ => none

/-- A range takes at least one character. -/
theorem length_lt_of_scanRange? {text rest : List Char} {set : CharSet}
    (h : scanRange? text = some (set, rest)) : rest.length < text.length := by
  unfold scanRange? at h
  split at h
  · simp at h
  · next hscan =>
    have hlt := length_lt_of_scanMember? hscan
    simp only [List.length_cons] at hlt
    split at h
    · simp at h
      rw [← h.2]
      simpa using hlt
    · split at h
      · next hhigh =>
        have := length_lt_of_scanMember? hhigh
        simp only [List.length_cons] at this
        split at h <;> simp at h
        rw [← h.2]
        omega
      · simp at h
  · next hscan =>
    have hlt := length_lt_of_scanMember? hscan
    simp at h
    rwa [← h.2]
  · next hscan =>
    have hlt := length_lt_of_scanMember? hscan
    split at h <;> simp at h
    rwa [← h.2]
  · next hscan =>
    have hlt := length_lt_of_scanMember? hscan
    simp at h
    rwa [← h.2]
  · simp at h

/-- A bracket that is open: whether it is negated, what stands before the last operation, and
what has been joined since. -/
structure OpenBracket where
  negated : Bool
  left : Option (CharSet × SetOperation)
  joined : CharSet

namespace OpenBracket

/-- Join another set. -/
def join (b : OpenBracket) (set : CharSet) : OpenBracket :=
  { b with joined := b.joined.union set }

/-- What stands in a bracket so far. -/
def total (b : OpenBracket) : CharSet :=
  match b.left with
  | some (left, operation) => operation.apply left.folded b.joined.folded
  | none => b.joined

/-- Put what stands in a bracket so far on the left of an operation. -/
def operate (b : OpenBracket) (operation : SetOperation) : OpenBracket :=
  { b with left := some (b.total, operation), joined := .none }

/-- The class of a bracket that is closed. -/
def close (b : OpenBracket) : CharSet :=
  if b.negated then b.total.folded.complement else b.total.folded

/-- A bracket just opened, given what stands after it, and what follows.  Hyphens at the start
stand for themselves, and so does a closing bracket at the very start. -/
def scan (text : List Char) : OpenBracket × List Char :=
  let negated := (splitCaret text).1
  match (splitCaret text).2 with
  | ']' :: rest => (⟨negated, none, .range ']' ']'⟩, rest)
  | '-' :: rest => (⟨negated, none, .range '-' '-'⟩, rest.dropWhile (· == '-'))
  | rest => (⟨negated, none, .none⟩, rest)

/-- Opening a bracket never lengthens a text. -/
theorem length_scan_le (text : List Char) : (scan text).2.length ≤ text.length := by
  have hcaret := length_splitCaret_le text
  unfold scan
  split
  · next hrest => simp_all; omega
  · next rest hrest =>
    have := (List.dropWhile_sublist (· == '-') (l := rest)).length_le
    simp_all
    omega
  · exact hcaret

end OpenBracket

/-- The class of the outermost of some open brackets, innermost first, and what follows it. -/
def scanClassFrom? (inner : OpenBracket) (outer : List OpenBracket) (text : List Char) :
    Option (CharSet × List Char) :=
  match text with
  | [] => none
  | ']' :: rest =>
    match outer with
    | [] => some (inner.close, rest)
    | next :: outer => scanClassFrom? (next.join inner.close) outer rest
  | '[' :: rest =>
    match _hnamed : scanNamed? rest with
    | some (set, after) =>
      have := length_lt_of_scanNamed? _hnamed
      scanClassFrom? (inner.join set) outer after
    | none =>
      let opened := OpenBracket.scan rest
      have := OpenBracket.length_scan_le rest
      scanClassFrom? opened.1 (inner :: outer) opened.2
  | first :: rest =>
    -- A doubled operation sign is no member, even where a member could stand.
    match (if rest.head? = some first then SetOperation.ofChar? first else none) with
    | some operation =>
      have := (List.drop_sublist 1 rest).length_le
      scanClassFrom? (inner.operate operation) outer (rest.drop 1)
    | none =>
      match _hrange : scanRange? (first :: rest) with
      | some (set, after) =>
        have := length_lt_of_scanRange? _hrange
        scanClassFrom? (inner.join set) outer after
      | none => none
termination_by text.length
decreasing_by all_goals (simp_all; try omega)

/-- The class at the start of a text, after its bracket, and what follows. -/
def scanBracket? (text : List Char) : Option (CharSet × List Char) :=
  let opened := OpenBracket.scan text
  scanClassFrom? opened.1 [] opened.2

/-- A class takes no character back. -/
theorem length_le_of_scanClassFrom? {inner : OpenBracket} {outer : List OpenBracket}
    {text rest : List Char} {set : CharSet}
    (h : scanClassFrom? inner outer text = some (set, rest)) : rest.length ≤ text.length := by
  fun_induction scanClassFrom? inner outer text with
  | case1 => simp at h
  | case2 => simp at h; simp [← h.2]
  | case3 inner after next outer ih => exact Nat.le_succ_of_le (ih h)
  | case4 _ _ _ _ _ _ hlt ih =>
    have := ih h
    simp only [List.length_cons]
    omega
  | case5 _ _ after _ _ hle ih =>
    exact Nat.le_succ_of_le (Nat.le_trans (ih h) hle)
  | case6 _ _ _ _ _ _ _ _ hle ih =>
    have := ih h
    simp only [List.length_cons]
    omega
  | case7 _ _ _ _ _ _ _ _ _ _ hlt ih =>
    have := ih h
    simp only [List.length_cons] at hlt ⊢
    omega
  | case8 => simp at h

/-- A class takes no character back. -/
theorem length_le_of_scanBracket? {text rest : List Char} {set : CharSet}
    (h : scanBracket? text = some (set, rest)) : rest.length ≤ text.length :=
  Nat.le_trans (length_le_of_scanClassFrom? h) (OpenBracket.length_scan_le text)

end FormulaSheet.Pattern
