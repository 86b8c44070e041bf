import ClassScript.Failure
import ClassScript.Source.Tokens
import ClassScript.Syntax.Statement

/-!
# Programs

A program is read from its tokens up to the first end mark, and a text by way of its tokens.
-/

namespace ClassScript

/-- The reading of tokens before anything is read: what stands behind the first end mark is left
out. -/
def Reading.ofTokens (unit : Nat) (tokens : List Token) : Reading where
  unit := unit
  last := (tokens.head?.map Token.span).getD {}
  rest := tokens.takeWhile fun t => t.kind ≠ .eof
  final := ((tokens.find? fun t => t.kind = .eof).map Token.span).getD {}
  declared := []

/-- The tree of a program's tokens. -/
def Node.ofTokens (unit : Nat) (tokens : List Token) : Except SyntaxError Node :=
  let start := Reading.ofTokens unit tokens
  (Parser.program start.rest.length).run' start

/-- The tree of a program's text. -/
def Node.ofText (unit : Nat) (text : String) : Except Failure Node := do
  let tokens ← (Source.tokens text).mapError .lexical
  (Node.ofTokens unit tokens).mapError .syntactic

theorem Node.ofText_eq_ok_iff {unit : Nat} {text : String} {root : Node} :
    Node.ofText unit text = .ok root ↔
      ∃ ts, Source.tokens text = .ok ts ∧ Node.ofTokens unit ts = .ok root := by
  have hok {f : Except SyntaxError Node} : f.mapError Failure.syntactic = .ok root ↔ f = .ok root := by
    cases f with
    | error e => exact iff_of_false nofun nofun
    | ok n => exact ⟨fun h => by cases h; rfl, fun h => by cases h; rfl⟩
  rw [ofText]
  cases Source.tokens text with
  | error e => exact iff_of_false nofun (by rintro ⟨ts, ⟨⟩, -⟩)
  | ok ts =>
    refine hok.trans ⟨fun h => ⟨ts, rfl, h⟩, ?_⟩
    rintro ⟨ts', heq, h⟩
    cases heq
    exact h

end ClassScript
