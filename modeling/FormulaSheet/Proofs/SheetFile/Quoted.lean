/-
Quoted texts.

Between two quotes stand items: characters that are neither quotes nor backslashes, and backslashes
with the character after each.  Both quotes are taken off before any item is looked at, so it is
never tested that the last quote closes the text; it shows in the backslashes alone.  An item ends
with an even number of them, if any, so it does not change whether a quote behind it stands after an
odd or an even number.  A quote is the second character of an item exactly where the number is odd,
and this settles the quotes inside and the one at the end.

* **`unquote?_quote`** — a text that is quoted is unquoted again;
* **`unquote?_eq_some_iff`** — what a quoted text is, and what it stands for;
* **`QuotedItem`**, **`standsFor_iff_exists_items`** — the items between the quotes;
* **`odd_trailingSlashes_append`**, **`isQuotedBody_iff_exists_items`** — the backslashes decide;
* **`unquote?_format`** — which texts are quoted, what they stand for, and why any other is not.
-/
import FormulaSheet.SheetFile.Quoted
import Mathlib.Algebra.Ring.Parity
import Mathlib.Data.List.Basic

namespace FormulaSheet.SheetFile

/-! ### What was quoted -/

theorem decode?_escapeChar (c : Char) (rest : List Char) :
    decode? (escapeChar c ++ rest) = (decode? rest).map (c :: ·) := by
  unfold escapeChar
  split
  · simp [decode?, unescapeChar]
  · simp [decode?, unescapeChar]
  · simp [decode?, unescapeChar]
  · simp [decode?, unescapeChar]
  · simp [decode?, unescapeChar]
  · -- any other character stands for itself, and starts no escape
    next hslash hquote _ _ _ =>
    rw [List.singleton_append, decode?]
    all_goals simp_all

theorem decode?_escape (text : List Char) : decode? (text.flatMap escapeChar) = some text := by
  induction text with
  | nil => rfl
  | cons c rest ih => rw [List.flatMap_cons, decode?_escapeChar, ih, Option.map_some]

/-- A quoted text is unquoted again. -/
theorem unquote?_quote (text : List Char) : unquote? (quote text) = some text := by
  rw [quote, unquote?, List.getLast?_concat, if_pos rfl, List.dropLast_concat]
  exact decode?_escape text

theorem newline_not_mem_quote (text : List Char) : '\n' ∉ quote text := by
  have hescape : ∀ c, '\n' ∉ escapeChar c := by
    intro c
    unfold escapeChar
    split <;> simp_all [eq_comm]
  simp only [quote, List.mem_cons, List.mem_append, List.mem_flatMap, not_or, not_exists, not_and]
  exact ⟨by decide, fun c _ => hescape c, by simp⟩

/-! ### What is unquoted -/

/-- What a text between quotes stands for, character by character. -/
inductive StandsFor : List Char → List Char → Prop
  | nil : StandsFor [] []
  | plain {c : Char} {body text : List Char} (hquote : c ≠ '"') (hslash : c ≠ '\\')
      (h : StandsFor body text) : StandsFor (c :: body) (c :: text)
  | escape (c : Char) {body text : List Char} (h : StandsFor body text) :
      StandsFor ('\\' :: c :: body) (unescapeChar c ++ text)

/-- A character that starts no escape, and is not a last backslash either, is no backslash. -/
theorem ne_slash {c : Char} {rest : List Char} (hlast : c = '\\' → rest = [] → False)
    (hescape : ∀ d tail, c = '\\' → rest = d :: tail → False) : c ≠ '\\' := by
  intro hc
  cases rest with
  | nil => exact hlast hc rfl
  | cons d tail => exact hescape d tail hc rfl

theorem decode?_eq_some_iff {body text : List Char} :
    decode? body = some text ↔ StandsFor body text := by
  constructor
  · intro h
    fun_induction decode? body generalizing text with
    | case1 =>
      obtain rfl := Option.some.inj h
      exact .nil
    | case2 => cases h
    | case3 => cases h
    | case4 c rest ih =>
      obtain ⟨text, htext, rfl⟩ := Option.map_eq_some_iff.1 h
      exact .escape c (ih htext)
    | case5 c rest hquote hlast hescape ih =>
      obtain ⟨text, htext, rfl⟩ := Option.map_eq_some_iff.1 h
      exact .plain hquote (ne_slash hlast hescape) (ih htext)
  · intro h
    induction h with
    | nil => rfl
    | plain hquote hslash h ih =>
      rw [decode?, ih]
      · rfl
      all_goals simp_all
    | escape c h ih => rw [decode?, ih, Option.map_some]

/-- A quoted text stands between two quotes. -/
theorem unquote?_eq_some_iff {value text : List Char} :
    unquote? value = some text ↔ ∃ body, value = '"' :: (body ++ ['"']) ∧ StandsFor body text := by
  constructor
  · intro h
    unfold unquote? at h
    split at h
    · next rest =>
      split at h
      · next hlast =>
        -- the last quote is not the first one, for it is found behind that
        exact ⟨rest.dropLast, by rw [List.dropLast_append_getLast? _ hlast],
          decode?_eq_some_iff.1 h⟩
      · cases h
    · cases h
  · rintro ⟨body, rfl, h⟩
    rw [unquote?, List.getLast?_concat, if_pos rfl, List.dropLast_concat]
    exact decode?_eq_some_iff.2 h

/-! ### Items -/

/-- An item of what stands between two quotes. -/
inductive QuotedItem where
  /-- A character that is neither a quote nor a backslash. -/
  | plain (c : Char) (hquote : c ≠ '"') (hslash : c ≠ '\\')
  /-- A backslash and the character after it, whichever that is. -/
  | escaped (c : Char)
deriving Repr, DecidableEq

namespace QuotedItem

/-- The characters that mean something behind a backslash, and what they mean. -/
def escapes : List (Char × Char) :=
  [('n', '\n'), ('r', '\r'), ('t', '\t'), ('"', '"'), ('\\', '\\')]

/-- The text of an item. -/
def written : QuotedItem → List Char
  | plain c _ _ => [c]
  | escaped c => ['\\', c]

/-- What an item stands for.  Where the character behind a backslash means nothing, both are
kept. -/
def decoded : QuotedItem → List Char
  | plain c _ _ => [c]
  | escaped c =>
    match escapes.lookup c with
    | some meant => [meant]
    | none => ['\\', c]

end QuotedItem

open QuotedItem (written decoded)

theorem unescapeChar_eq_decoded (c : Char) : unescapeChar c = (QuotedItem.escaped c).decoded := by
  unfold unescapeChar
  split
  · rfl
  · rfl
  · rfl
  · rfl
  · rfl
  · next hslash hquote hn hr ht =>
    -- what is not among the five characters is not in the list either
    have hlookup : QuotedItem.escapes.lookup c = none := by
      simp_all [QuotedItem.escapes, List.lookup_eq_none_iff]
    rw [QuotedItem.decoded, hlookup]

/-- A text between quotes is its items, and stands for what they stand for. -/
theorem standsFor_iff_exists_items {body text : List Char} : StandsFor body text ↔
    ∃ items : List QuotedItem, body = items.flatMap written ∧ text = items.flatMap decoded := by
  constructor
  · intro h
    induction h with
    | nil => exact ⟨[], rfl, rfl⟩
    | @plain c _ _ hquote hslash _ ih =>
      obtain ⟨items, rfl, rfl⟩ := ih
      exact ⟨.plain c hquote hslash :: items, rfl, rfl⟩
    | escape c _ ih =>
      obtain ⟨items, rfl, rfl⟩ := ih
      refine ⟨.escaped c :: items, rfl, ?_⟩
      rw [List.flatMap_cons, unescapeChar_eq_decoded]
  · rintro ⟨items, rfl, rfl⟩
    induction items with
    | nil => exact .nil
    | cons item items ih =>
      cases item with
      | plain c hquote hslash => exact .plain hquote hslash ih
      | escaped c =>
        rw [List.flatMap_cons, List.flatMap_cons, ← unescapeChar_eq_decoded]
        exact .escape c ih

/-! ### Backslashes -/

/-- How many backslashes a text ends with. -/
def trailingSlashes (text : List Char) : Nat :=
  (text.reverse.takeWhile (· = '\\')).length

theorem trailingSlashes_append (front text : List Char) :
    trailingSlashes (front ++ text) =
      if trailingSlashes text = text.length then text.length + trailingSlashes front
      else trailingSlashes text := by
  unfold trailingSlashes
  rw [List.reverse_append, List.takeWhile_append, List.length_reverse]
  split
  · rw [List.length_append, List.length_reverse]
  · rfl

/-- What stands before a text does not change the parity of its last backslashes if it ends with an
even number of them itself. -/
theorem odd_trailingSlashes_append {front : List Char} (h : Even (trailingSlashes front))
    (text : List Char) :
    Odd (trailingSlashes (front ++ text)) ↔ Odd (trailingSlashes text) := by
  rw [trailingSlashes_append]
  split
  -- a text of backslashes alone is counted with those before it
  · next hall => rw [hall, Nat.odd_add, iff_true_right h]
  · rfl

theorem even_trailingSlashes_written (item : QuotedItem) : Even (trailingSlashes item.written) := by
  cases item with
  | plain c hquote hslash => simp [trailingSlashes, written, hslash]
  | escaped c =>
    by_cases hc : c = '\\'
    · subst hc
      decide
    · simp [trailingSlashes, written, hc]

/-- What can stand between two quotes: the quotes in it stand after an odd number of backslashes,
and the one behind it after an even number. -/
structure IsQuotedBody (body : List Char) : Prop where
  inside : ∀ before after, body = before ++ '"' :: after → Odd (trailingSlashes before)
  close : Even (trailingSlashes body)

theorem not_isQuotedBody_iff {body : List Char} : ¬ IsQuotedBody body ↔
    Odd (trailingSlashes body) ∨
      ∃ before after, body = before ++ '"' :: after ∧ Even (trailingSlashes before) := by
  constructor
  · intro h
    by_contra hneither
    rw [not_or, Nat.not_odd_iff_even] at hneither
    refine h ⟨fun before after hbody => ?_, hneither.1⟩
    rw [← Nat.not_even_iff_odd]
    exact fun heven => hneither.2 ⟨before, after, hbody, heven⟩
  · rintro (hodd | ⟨before, after, hbody, heven⟩) h
    · exact Nat.not_odd_iff_even.2 h.close hodd
    · exact Nat.not_even_iff_odd.2 (h.inside before after hbody) heven

/-- A quote that stands in an item is its second character. -/
theorem odd_trailingSlashes_of_written {item : QuotedItem} {before after : List Char}
    (h : item.written = before ++ '"' :: after) : Odd (trailingSlashes before) := by
  cases item with
  | plain c hquote hslash =>
    have hmem : '"' ∈ written (.plain c hquote hslash) := by simp [h]
    exact absurd (List.mem_singleton.1 hmem).symm hquote
  | escaped c =>
    obtain _ | ⟨d, _ | ⟨e, before⟩⟩ := before
    · exact absurd (List.cons.inj h).1 (by decide)
    · obtain rfl := (List.cons.inj h).1
      decide
    · exact absurd (List.cons.inj (List.cons.inj h).2).2 (by simp)

/-- An item has no quote that is not escaped, and changes nothing for those behind it. -/
theorem isQuotedBody_written_append (item : QuotedItem) {rest : List Char} :
    IsQuotedBody (item.written ++ rest) ↔ IsQuotedBody rest := by
  have hbehind := odd_trailingSlashes_append (even_trailingSlashes_written item)
  have hclose : Even (trailingSlashes (item.written ++ rest)) ↔ Even (trailingSlashes rest) := by
    rw [← Nat.not_odd_iff_even, hbehind, Nat.not_odd_iff_even]
  constructor
  · intro h
    refine ⟨fun before after hrest => ?_, hclose.1 h.close⟩
    exact (hbehind before).1 (h.inside _ after (by rw [hrest, List.append_assoc]))
  · intro h
    refine ⟨fun before after hbody => ?_, hclose.2 h.close⟩
    rcases List.append_eq_append_iff.1 hbody with ⟨behind, rfl, hrest⟩ | ⟨cut, hwritten, hcut⟩
    · exact (hbehind behind).2 (h.inside behind after hrest)
    -- the quote is in the item, or it is the first character behind it
    · cases cut with
      | nil => exact absurd (h.inside [] after hcut.symm) (by decide)
      | cons c cut =>
        obtain rfl := (List.cons.inj hcut).1
        exact odd_trailingSlashes_of_written hwritten

/-- A text consists of items if and only if the backslashes before its quotes are right. -/
theorem isQuotedBody_iff_exists_items {body : List Char} : IsQuotedBody body ↔
    ∃ items : List QuotedItem, body = items.flatMap written := by
  constructor
  · intro h
    -- the decoder takes off an item at a time, and stops at a quote or a last backslash
    fun_induction decode? body with
    | case1 => exact ⟨[], rfl⟩
    | case2 rest => exact absurd (h.inside [] rest rfl) (by decide)
    | case3 => exact absurd h.close (by decide)
    | case4 c rest ih =>
      obtain ⟨items, rfl⟩ := ih ((isQuotedBody_written_append (.escaped c)).1 h)
      exact ⟨.escaped c :: items, rfl⟩
    | case5 c rest hquote hlast hescape ih =>
      let item := QuotedItem.plain c hquote (ne_slash hlast hescape)
      obtain ⟨items, rfl⟩ := ih ((isQuotedBody_written_append item).1 h)
      exact ⟨item :: items, rfl⟩
  · rintro ⟨items, rfl⟩
    induction items with
    | nil => exact ⟨by simp, by decide⟩
    | cons item items ih => exact (isQuotedBody_written_append item).2 ih

/-! ### Quoted texts -/

/-- A text stands between two quotes unless it lacks one of them. -/
theorem exists_between_iff {value : List Char} : (∃ body, value = '"' :: (body ++ ['"'])) ↔
    value.head? = some '"' ∧ value.getLast? = some '"' ∧ value ≠ ['"'] := by
  constructor
  · rintro ⟨body, rfl⟩
    refine ⟨rfl, ?_, by simp⟩
    rw [← List.cons_append, List.getLast?_concat]
  · rintro ⟨hhead, hlast, hne⟩
    obtain ⟨rest, rfl⟩ := List.head?_eq_some_iff.1 hhead
    obtain ⟨_ | ⟨c, body⟩, hbody⟩ := List.getLast?_eq_some_iff.1 hlast
    · exact absurd hbody hne
    · exact ⟨body, by rw [hbody, (List.cons.inj hbody).1, List.cons_append]⟩

theorem unquote?_eq_some_iff_exists_items {value text : List Char} : unquote? value = some text ↔
    ∃ items : List QuotedItem,
      value = '"' :: (items.flatMap written ++ ['"']) ∧ text = items.flatMap decoded := by
  rw [unquote?_eq_some_iff]
  constructor
  · rintro ⟨body, rfl, hbody⟩
    obtain ⟨items, rfl, rfl⟩ := standsFor_iff_exists_items.1 hbody
    exact ⟨items, rfl, rfl⟩
  · rintro ⟨items, rfl, rfl⟩
    exact ⟨_, rfl, standsFor_iff_exists_items.2 ⟨items, rfl, rfl⟩⟩

/-- What is not unquoted lacks a quote at one of its ends, or has a wrong body. -/
theorem unquote?_eq_none_iff {value : List Char} : unquote? value = none ↔
    (¬ ∃ body, value = '"' :: (body ++ ['"'])) ∨
      ∃ body, value = '"' :: (body ++ ['"']) ∧ ¬ IsQuotedBody body := by
  constructor
  · intro hnone
    by_cases hbetween : ∃ body, value = '"' :: (body ++ ['"'])
    · obtain ⟨body, rfl⟩ := hbetween
      refine .inr ⟨body, rfl, fun hbody => ?_⟩
      obtain ⟨items, rfl⟩ := isQuotedBody_iff_exists_items.1 hbody
      have hsome := unquote?_eq_some_iff_exists_items.2 ⟨items, rfl, rfl⟩
      rw [hnone] at hsome
      cases hsome
    · exact .inl hbetween
  · intro h
    rw [Option.eq_none_iff_forall_ne_some]
    intro text htext
    obtain ⟨items, hvalue, -⟩ := unquote?_eq_some_iff_exists_items.1 htext
    rcases h with hbetween | ⟨body, rfl, hbody⟩
    · exact hbetween ⟨_, hvalue⟩
    · -- the quotes around the items and around the body are the same
      have hitems := List.append_cancel_right (List.cons.inj hvalue).2
      exact hbody (isQuotedBody_iff_exists_items.2 ⟨items, hitems⟩)

/-- A text is unquoted if and only if it is items between two quotes, and the result is what the
items stand for, one after the other.  So it is not unquoted where a quote is missing at one of its
ends, as in a lone quote, where the last quote is escaped, and where a quote before it is not. -/
theorem unquote?_format (value : List Char) :
    (∀ text, unquote? value = some text ↔ ∃ items : List QuotedItem,
        value = '"' :: (items.flatMap written ++ ['"']) ∧ text = items.flatMap decoded) ∧
      (unquote? value = none ↔
        value.head? ≠ some '"' ∨ value.getLast? ≠ some '"' ∨ value = ['"'] ∨
          ∃ body, value = '"' :: (body ++ ['"']) ∧
            (Odd (trailingSlashes body) ∨
              ∃ before after, body = before ++ '"' :: after ∧ Even (trailingSlashes before))) := by
  refine ⟨fun text => unquote?_eq_some_iff_exists_items, ?_⟩
  rw [unquote?_eq_none_iff, exists_between_iff]
  simp only [not_isQuotedBody_iff, not_and_or, ne_eq, not_not, or_assoc]

/-- Three backslashes before the last quote: one pair, and one that escapes the quote. -/
example : unquote? "\"C:\\\\\\\"".toList = none := by decide

end FormulaSheet.SheetFile
