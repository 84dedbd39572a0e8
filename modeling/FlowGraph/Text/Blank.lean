/-! Classes of characters and the cutting of text into pieces.

Text is a list of characters here. Blank characters are those with the Unicode
property White_Space, control characters those of category Cc. Every function
is total and says nothing about lines or instructions. -/
namespace FlowGraph.Text

/-- The code points with the property White_Space, as closed ranges. -/
def blankRanges : List (Nat × Nat) :=
  [(0x09, 0x0D), (0x20, 0x20), (0x85, 0x85), (0xA0, 0xA0), (0x1680, 0x1680),
    (0x2000, 0x200A), (0x2028, 0x2029), (0x202F, 0x202F), (0x205F, 0x205F), (0x3000, 0x3000)]

def isBlank (c : Char) : Bool :=
  blankRanges.any fun (low, high) => low ≤ c.toNat && c.toNat ≤ high

/-- The two ranges of control characters, on either side of printable ASCII. -/
def isControl (c : Char) : Bool :=
  c.toNat < 0x20 || (0x7F ≤ c.toNat && c.toNat < 0xA0)

/-- Characters that stand for themselves in a name. -/
def isNameChar (c : Char) : Bool :=
  c.isAlphanum || c == '_' || c == '.' || c == '$'

/-- The longest ending whose characters all satisfy `p`, and what stands before it. -/
def spanEnd (p : Char → Bool) (cs : List Char) : List Char × List Char :=
  ((cs.reverse.dropWhile p).reverse, (cs.reverse.takeWhile p).reverse)

def trimStart (cs : List Char) : List Char := cs.dropWhile isBlank

def trimEnd (cs : List Char) : List Char := (spanEnd isBlank cs).1

/-- Removes the blanks at both ends. -/
def trim (cs : List Char) : List Char := trimEnd (trimStart cs)

/-- What follows `lead` in a text that starts with it. -/
def after? : (lead : List Char) → List Char → Option (List Char)
  | [], cs => some cs
  | _ :: _, [] => none
  | l :: lead, c :: cs => if l = c then after? lead cs else none

/-- Whether a text is empty or starts with a blank, so that a word ends before it. -/
def atWordEnd : List Char → Bool
  | [] => true
  | c :: _ => isBlank c

/-- What follows the word `word` in a text whose first word it is. -/
def afterWord? (word : String) (cs : List Char) : Option (List Char) :=
  match after? word.toList cs with
  | some rest => if atWordEnd rest then some rest else none
  | none => none

theorem after?_eq_some_iff {lead cs rest : List Char} :
    after? lead cs = some rest ↔ cs = lead ++ rest := by
  induction lead generalizing cs with
  | nil => simp [after?, eq_comm]
  | cons l lead ih =>
      cases cs with
      | nil => simp [after?]
      | cons c cs =>
          by_cases same : l = c
          · subst same; simp [after?, ih]
          · simp [after?, same, Ne.symm same]

theorem spanEnd_append (p : Char → Bool) (cs : List Char) :
    (spanEnd p cs).1 ++ (spanEnd p cs).2 = cs := by
  rw [spanEnd, ← List.reverse_append, List.takeWhile_append_dropWhile, List.reverse_reverse]

end FlowGraph.Text
