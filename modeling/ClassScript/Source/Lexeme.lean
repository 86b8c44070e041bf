import ClassScript.Source.Error
import ClassScript.Text.Word
import ClassScript.Token

/-!
# Lexemes

The token that begins with a given character.  Each reader gets the characters behind the first
and says what the token is and how many of them belong to it; a fault says how many of them were
read before it showed.
-/

namespace ClassScript.Source

/-- The result of reading a lexeme: what was read, and the number of characters behind the first. -/
abbrev Read (α : Type) := Except (LexFault × Nat) (α × Nat)

/-- The character that an escape stands for. -/
def escape? : Char → Option Char
  | 'n' => some '\n'
  | 't' => some '\t'
  | 'r' => some '\r'
  | '"' => some '"'
  | '\'' => some '\''
  | '\\' => some '\\'
  | _ => none

/-- One more character of a string, written with `n` characters. -/
def Read.push (c : Char) (n : Nat) : Read (List Char) → Read (List Char)
  | .ok (s, k) => .ok (c :: s, n + k)
  | .error (f, k) => .error (f, n + k)

/-- The contents of a string literal, up to the quote that closes it. -/
def quoted (quote : Char) : List Char → Read (List Char)
  | [] => .error (.unterminatedString, 0)
  | '\\' :: [] => .error (.unterminatedString, 1)
  | '\\' :: e :: cs =>
    match escape? e with
    | some c => (quoted quote cs).push c 2
    | none => .error (.invalidEscape e, 1)
  | c :: cs =>
    if c = '\n' then .error (.unterminatedString, 0)
    else if c = quote then .ok ([], 1)
    else (quoted quote cs).push c 1

/-- The greatest integer of the language. -/
def maxInt : Nat := 0x7fffffffffffffff

/-- The number that decimal digits write. -/
def decimal (digits : List Char) : Nat := digits.foldl (fun n d => 10 * n + (d.toNat - 48)) 0

/-- An integer literal is a maximal run of digits; its number must be one of the language. -/
def number (c : Char) (cs : List Char) : Read TokenKind :=
  let more := cs.takeWhile Char.isDigit
  let n := decimal (c :: more)
  if n ≤ maxInt then .ok (.number (Int64.ofNat n), more.length)
  else .error (.invalidNumber (String.ofList (c :: more)), more.length)

/-- A keyword or a name is a maximal run of characters that may stand in a word. -/
def word (c : Char) (cs : List Char) : Read TokenKind :=
  let more := cs.takeWhile Text.isWordPart
  .ok (.ofWord (String.ofList (c :: more)), more.length)

/-- The operator that a character writes together with an equals sign behind it. -/
def withEquals? : Char → Option TokenKind
  | '=' => some .eq
  | '!' => some .ne
  | '<' => some .le
  | '>' => some .ge
  | _ => none

/-- The token that begins with `c` and goes on in `cs`. -/
def lexeme (c : Char) (cs : List Char) : Read TokenKind :=
  match withEquals? c with
  | some k => if cs.head? = some '=' then .ok (k, 1) else .ok (.char c, 0)
  | none =>
    if c = '"' ∨ c = '\'' then
      (quoted c cs).map fun (s, n) => (.string (String.ofList s), n)
    else if c.isDigit then number c cs
    else if Text.isWordStart c then word c cs
    else if Text.isPunctuation c then .ok (.char c, 0)
    else .error (.unexpectedChar c, 0)

end ClassScript.Source
