/-!
White space, lines and fields. White space is the Unicode property of that name. All functions are
on lists of characters, so that they can be reasoned about by recursion on the text.
-/

namespace SegregatedFit.Text

def isBlank (c : Char) : Bool :=
  let n := c.toNat
  (9 ≤ n && n ≤ 13) || n == 32 || n == 0x85 || n == 0xA0 || n == 0x1680 ||
    (0x2000 ≤ n && n ≤ 0x200A) || n == 0x2028 || n == 0x2029 || n == 0x202F || n == 0x205F ||
    n == 0x3000

-- The parts of a text between the characters that satisfy `isSeparator`; always one more than
-- there are separators.
def splitOn (isSeparator : Char → Bool) (text : List Char) : List (List Char) :=
  text.foldr step [[]]
where
  step (c : Char) (parts : List (List Char)) : List (List Char) :=
    if isSeparator c then [] :: parts
    else match parts with
      | [] => [[c]]
      | part :: rest => (c :: part) :: rest

-- The maximal runs of characters that are not white space.
def fields (text : List Char) : List (List Char) := (splitOn isBlank text).filter (!·.isEmpty)

-- The text without the white space at its ends.
def trim (text : List Char) : List Char :=
  ((text.dropWhile isBlank).reverse.dropWhile isBlank).reverse

-- The trimmed lines that are not empty, each with its number in the text, counted from one. A
-- carriage return before the end of a line is trimmed away with the rest of the white space.
def numberedLines (text : List Char) : List (Nat × List Char) :=
  ((splitOn (· == '\n') text).zipIdx 1).filterMap fun (line, number) =>
    let line := trim line
    if line.isEmpty then none else some (number, line)

theorem splitOn_ne_nil (p : Char → Bool) (text : List Char) : splitOn p text ≠ [] := by
  cases text with
  | nil => simp [splitOn]
  | cons c rest =>
    simp only [splitOn, List.foldr_cons, splitOn.step]
    split
    · simp
    · split <;> simp

theorem isBlank_of_isWhitespace {c : Char} (h : c.isWhitespace = true) : isBlank c = true := by
  simp only [Char.isWhitespace, Bool.or_eq_true, decide_eq_true_eq] at h
  rcases h with ((h | h) | h) | h <;> subst h <;> decide

end SegregatedFit.Text
