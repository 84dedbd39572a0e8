import FlowGraph.Text.Blank

/-! Escape groups. A group is a backslash and an opening brace, a code point in
hexadecimal, and a closing brace; with nothing between the braces it stands for
nothing. Writing chooses by a policy which characters become groups. Reading
resolves every group and keeps all other characters, a backslash that starts no
group included. -/
namespace FlowGraph.Text

def hexValue? (c : Char) : Option Nat :=
  if c.isDigit then some (c.toNat - '0'.toNat)
  else if 'a' ≤ c ∧ c ≤ 'f' then some (c.toNat - 'a'.toNat + 10)
  else if 'A' ≤ c ∧ c ≤ 'F' then some (c.toNat - 'A'.toNat + 10)
  else none

def isHexDigit (c : Char) : Bool := (hexValue? c).isSome

/-- The number that hexadecimal digits denote, the most significant first. -/
def readHex? (digits : List Char) : Option Nat :=
  digits.foldlM (fun n c => (hexValue? c).map (16 * n + ·)) 0

/-- The character with a given code point. Surrogates and numbers past the last
plane have none. -/
def scalar? (n : Nat) : Option Char :=
  if n.isValidChar then some (Char.ofNat n) else none

/-- The character that a signless or plus-signed hexadecimal number names. -/
def codePoint? (number : List Char) : Option Char :=
  let digits := match number with
    | '+' :: digits => digits
    | digits => digits
  if digits.isEmpty then none else (readHex? digits).bind scalar?

/-- The text that a group with the given inside stands for. -/
def groupText? (inside : List Char) : Option (List Char) :=
  if inside.isEmpty then some [] else (codePoint? inside).map ([·])

/-- The text of the group at the head of a text, and how many characters the
group takes. The group ends at the first closing brace. -/
def groupAt? : List Char → Option (List Char × Nat)
  | '\\' :: '{' :: rest =>
      match rest.dropWhile (· != '}') with
      | [] => none
      | _ :: _ =>
          let inside := rest.takeWhile (· != '}')
          (groupText? inside).map fun text => (text, inside.length + 3)
  | _ => none

/-- Resolves the groups of a text after passing over its first `skip` characters. -/
def unescapeFrom : (skip : Nat) → List Char → List Char
  | _, [] => []
  | skip + 1, _ :: rest => unescapeFrom skip rest
  | 0, c :: rest =>
      match groupAt? (c :: rest) with
      | some (text, size) => text ++ unescapeFrom (size - 1) rest
      | none => c :: unescapeFrom 0 rest

/-- Resolves every group of a text. -/
def unescape (cs : List Char) : List Char := unescapeFrom 0 cs

/-- The group that stands for one character. -/
def group (c : Char) : List Char :=
  '\\' :: '{' :: (Nat.toDigits 16 c.toNat ++ ['}'])

/-- The group that stands for nothing. -/
def emptyGroup : List Char := ['\\', '{', '}']

/-- Writes as groups the characters that `policy` picks by place and character.
Empty text becomes the empty group, so that it still occupies its field. -/
def escapeWith (policy : Nat → Char → Bool) (cs : List Char) : List Char :=
  if cs.isEmpty then emptyGroup
  else cs.zipIdx.flatMap fun (c, i) => if policy i c then group c else [c]

/-- Writes a name: only name characters stand for themselves. -/
def escapeName (cs : List Char) : List Char :=
  escapeWith (fun _ c => !isNameChar c) cs

/-- Whether free text cannot hold `c` at place `i`, where `last` is its last
place: a backslash would start a group, a control character would break the
line, and a blank at either end would be trimmed. -/
def needsGroup (last i : Nat) (c : Char) : Bool :=
  c == '\\' || isControl c || (isBlank c && (i == 0 || i == last))

/-- Writes free text such as a condition or a returned value. -/
def escapeText (cs : List Char) : List Char :=
  escapeWith (needsGroup (cs.length - 1)) cs

end FlowGraph.Text
