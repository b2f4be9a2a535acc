import Mathlib

/-!
# Texts of the Python package

The Python package bounds texts by a token estimate and cuts generated text into facts with the
string methods and regular expressions of the language. This file has the ones it uses. A string is
a list of code points. The digits of a regular expression are the decimal digits of Unicode, a table
that is a parameter here.
-/

set_option autoImplicit false

namespace TurboMemory.Tsm

/-- A Python string. -/
abbrev Str := List Char

/-- An exception of the package, with its text. -/
inductive PyError
  | valueError (message : String)
  | overflowError (message : String)
  /-- What a callable passed in raises. -/
  | raised (message : String)
deriving DecidableEq

/-! ## Character classes -/

/-- White space, for `str.strip` and for `\s`. -/
def isSpace (c : Char) : Bool :=
  let n := c.toNat
  (0x09 ≤ n && n ≤ 0x0D) || (0x1C ≤ n && n ≤ 0x20) || n == 0x85 || n == 0xA0 || n == 0x1680 ||
    (0x2000 ≤ n && n ≤ 0x200A) || n == 0x2028 || n == 0x2029 || n == 0x202F || n == 0x205F ||
    n == 0x3000

/-- The characters `str.splitlines` splits at. -/
def isLineBreak (c : Char) : Bool :=
  let n := c.toNat
  (0x0A ≤ n && n ≤ 0x0D) || (0x1C ≤ n && n ≤ 0x1E) || n == 0x85 || n == 0x2028 || n == 0x2029

/-- The characters that end a sentence. -/
def isSentenceEnd (c : Char) : Bool := c == '.' || c == '!' || c == '?'

/-! ## String methods -/

/-- `str.strip`. -/
def strip (s : Str) : Str := (s.dropWhile isSpace).rdropWhile isSpace

/-- `str.splitlines`, with the characters of the current line in reverse order. -/
def splitlinesFrom : Str → Str → List Str
  | line, [] => if line = [] then [] else [line.reverse]
  | line, '\r' :: '\n' :: rest => line.reverse :: splitlinesFrom [] rest
  | line, c :: rest =>
    if isLineBreak c then line.reverse :: splitlinesFrom [] rest
    else splitlinesFrom (c :: line) rest

/-- `str.splitlines`: a line break ends a line, and nothing follows the last one. -/
def splitlines (s : Str) : List Str := splitlinesFrom [] s

/-- `"\n".join`. -/
def joinLines (lines : List Str) : Str := ['\n'].intercalate lines

/-! ## Regular expressions -/

/-- Go through a text and split it at white space behind the end of a sentence. `skipping`: white
space is being skipped; `ended`: the last character ends a sentence. -/
def splitSentencesFrom : Bool → Bool → Str → Str → List Str
  | _, _, part, [] => [part.reverse]
  | skipping, ended, part, c :: rest =>
    if skipping && isSpace c then splitSentencesFrom true false part rest
    else if ended && isSpace c then part.reverse :: splitSentencesFrom true false [] rest
    else splitSentencesFrom false (isSentenceEnd c) (c :: part) rest

/-- `re.split(r"(?<=[.!?])\s+", text)`. -/
def splitSentences (text : Str) : List Str := splitSentencesFrom false false [] text

/-- `re.sub(r"^(?:[-*]\s*|\d+[.)]\s*)", "", line)`: a line without its bullet or number. -/
def dropBullet (isDecimal : Char → Bool) (line : Str) : Str :=
  match line with
  | [] => []
  | c :: rest =>
    if c == '-' || c == '*' then rest.dropWhile isSpace
    else if isDecimal c then
      match rest.dropWhile isDecimal with
      | [] => line
      | d :: rest => if d == '.' || d == ')' then rest.dropWhile isSpace else line
    else line

/-! ## Tokens -/

/-- Four characters per token, and nothing for blank text. -/
def estimateTokens (text : Str) : ℕ := if strip text = [] then 0 else max 1 (text.length / 4)

/-- The tokens of several texts. -/
def totalTokens (texts : List Str) : ℕ := (texts.map estimateTokens).sum

/-- No texts. -/
@[simp] lemma totalTokens_nil : totalTokens [] = 0 := rfl

/-- One text more. -/
@[simp] lemma totalTokens_cons (text : Str) (texts : List Str) :
    totalTokens (text :: texts) = estimateTokens text + totalTokens texts := rfl

end TurboMemory.Tsm
