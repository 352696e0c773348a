/-
Text in a log.

A log shows a text between double quotes so that every character of it can be seen: quotes and
backslashes have a backslash before them, the usual control characters their letter, and what
leaves no mark of its own, or only one on its neighbour, is shown by its code point.  Of these only
the more common ones are known here, so some of the others are shown as they are.

* **`logged`** — a text as a log shows it;
* **`loggedList`** — a list of texts as a log shows it.
-/
import FormulaSheet.Text.Blank

namespace FormulaSheet.Text

/-- Code points, besides blanks, that leave no mark of their own: controls, format
characters, combining marks, private use.  The table is partial: it lacks the combining marks of
most scripts, some format characters, and the code points below U+E0000 that stand for no
character. -/
def unmarkedRanges : List (Nat × Nat) :=
  [(0x00, 0x1F), (0x7F, 0x9F), (0xAD, 0xAD), (0x300, 0x36F), (0x483, 0x489), (0x591, 0x5BD),
    (0x600, 0x605), (0x610, 0x61C), (0x64B, 0x65F), (0x200B, 0x200F), (0x202A, 0x202E),
    (0x2060, 0x206F), (0x20D0, 0x20F0), (0x302A, 0x302F), (0x3099, 0x309A), (0xE000, 0xF8FF),
    (0xFE00, 0xFE0F), (0xFE20, 0xFE2F), (0xFEFF, 0xFEFF), (0xFFF0, 0xFFFB), (0xFFFE, 0xFFFF),
    (0xE0000, 0x10FFFF)]

/-- Whether a character leaves a mark of its own, as far as the table goes.  Of the blanks only the
space counts. -/
def isMarked (c : Char) : Bool :=
  c == ' ' ||
    !(isBlank c || unmarkedRanges.any fun (low, high) => low ≤ c.toNat && c.toNat ≤ high)

/-- A character as a log shows it. -/
def loggedChar (c : Char) : String :=
  match c with
  | '"' => "\\\""
  | '\\' => "\\\\"
  | '\n' => "\\n"
  | '\r' => "\\r"
  | '\t' => "\\t"
  | '\x00' => "\\0"
  | c =>
    if isMarked c then c.toString
    else "\\u\x7b" ++ String.ofList (Nat.toDigits 16 c.toNat) ++ "\x7d"

/-- A text as a log shows it. -/
def logged (text : String) : String :=
  "\"" ++ String.join (text.toList.map loggedChar) ++ "\""

/-- A list of texts as a log shows it. -/
def loggedList (texts : List String) : String :=
  "[" ++ ", ".intercalate (texts.map logged) ++ "]"

end FormulaSheet.Text
