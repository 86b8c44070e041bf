import ClassScript.Proofs.StatementComplete

/-!
# The reader of programs accepts its grammar

A list of tokens is read as a program if and only if the grammar has it as a text of one, and what is
read is then the tree that the grammar has for it; so no text has two trees.  Main statements:
`ofTokens_eq_ok_iff`, `accepted_iff_derivable`, `Writes.tree_unique`.
-/

namespace ClassScript

open Grammar

/-- `w` is a text of a program without its end mark. -/
def Grammar.Derivable (unit : Nat) (w : List TokenKind) : Prop :=
  ∃ ns b, Writes unit {} (.statements ns) w b

variable {unit : Nat} {ts : List Token} {last : Token}

namespace Reading

theorem rest_ofTokens (h : ∀ t ∈ ts, t.kind ≠ .eof) (hl : last.kind = .eof) :
    (ofTokens unit (ts ++ [last])).rest = ts := by
  show (ts ++ [last]).takeWhile (fun t => t.kind ≠ .eof) = ts
  rw [List.takeWhile_append_of_pos (by simpa using h), List.takeWhile_cons_of_neg (by simpa using hl),
    List.append_nil]

theorem final_ofTokens (h : ∀ t ∈ ts, t.kind ≠ .eof) (hl : last.kind = .eof) :
    (ofTokens unit (ts ++ [last])).final = last.span := by
  have hfind : (ts ++ [last]).find? (fun t => t.kind = .eof) = some last := by
    rw [List.find?_append, List.find?_eq_none.2 (by simpa using h), Option.none_or,
      List.find?_cons_of_pos (by simpa using hl)]
  rw [ofTokens, hfind]
  rfl

/-- No class is known before anything is read. -/
theorem names_of_declared {s : Reading} (h : s.declared = []) : s.names = {} := by
  simp only [names, declares, finishes, h, ClassNames.mk.injEq]
  constructor
  · ext x
    exact iff_of_false (Bool.false_ne_true) (Set.notMem_empty x)
  · ext x
    exact iff_of_false (Bool.false_ne_true) (Set.notMem_empty x)

end Reading

theorem ofTokens_eq_ok {tokens : List Token} {n : Node} :
    Node.ofTokens unit tokens = .ok n ↔
      ∃ s', Parser.program (Reading.ofTokens unit tokens).rest.length (Reading.ofTokens unit tokens) =
        .ok (n, s') := by
  show Prod.fst <$> Parser.program _ (Reading.ofTokens unit tokens) = _ ↔ _
  cases Parser.program _ (Reading.ofTokens unit tokens) with
  | error e =>
    constructor
    · intro h
      cases h
    · rintro ⟨s', h⟩
      cases h
  | ok x =>
    obtain ⟨m, s'⟩ := x
    constructor
    · intro h
      cases h
      exact ⟨s', rfl⟩
    · rintro ⟨t, h⟩
      cases h
      rfl

/-- What is read from tokens is a block that the grammar has those up to the first end mark for. -/
theorem ofTokens_writes {tokens : List Token} {n : Node} (h : Node.ofTokens unit tokens = .ok n) :
    ∃ ns b, n.bare = .block {} ns ∧
      Writes unit {} (.statements ns) (Reading.ofTokens unit tokens).kinds b := by
  obtain ⟨s', hs⟩ := ofTokens_eq_ok.1 h
  have heof : .eof ∉ (Reading.ofTokens unit tokens).kinds := by
    intro hmem
    obtain ⟨t, ht, hk⟩ := List.mem_map.1 hmem
    have hne : decide (t.kind ≠ .eof) = true := List.all_eq_true.1 List.all_takeWhile t ht
    exact of_decide_eq_true hne hk
  obtain ⟨ns, hns, hwrites⟩ := Parser.program_sound heof hs
  rw [show (Reading.ofTokens unit tokens).names = {} from Reading.names_of_declared rfl] at hwrites
  exact ⟨ns, _, hns, hwrites⟩

/-- What is read from tokens up to their only end mark is what the grammar has them for. -/
theorem ofTokens_eq_ok_iff (h : ∀ t ∈ ts, t.kind ≠ .eof) (hl : last.kind = .eof) (ns : List Node) :
    (∃ n, Node.ofTokens unit (ts ++ [last]) = .ok n ∧ n.bare = .block {} ns) ↔
      ∃ b, Writes unit {} (.statements ns) (ts.map Token.kind) b := by
  have hnames : (Reading.ofTokens unit (ts ++ [last])).names = {} := Reading.names_of_declared rfl
  have hkinds : (Reading.ofTokens unit (ts ++ [last])).kinds = ts.map Token.kind := by
    rw [Reading.kinds, Reading.rest_ofTokens h hl]
  constructor
  · rintro ⟨n, hn, hbare⟩
    obtain ⟨ms, b, hms, hwrites⟩ := ofTokens_writes hn
    rw [hbare] at hms
    cases hms
    rw [hkinds] at hwrites
    exact ⟨b, hwrites⟩
  · rintro ⟨b, hwrites⟩
    rw [← hkinds, ← hnames] at hwrites
    obtain ⟨n, s', hs, hbare, -⟩ := Parser.program_complete (s := .ofTokens unit (ts ++ [last])) hwrites
    exact ⟨n, ofTokens_eq_ok.2 ⟨s', hs⟩, hbare⟩

/-- Tokens up to their only end mark are read as a program if and only if the grammar has them as a
text of one. -/
theorem accepted_iff_derivable (h : ∀ t ∈ ts, t.kind ≠ .eof) (hl : last.kind = .eof) :
    (∃ n, Node.ofTokens unit (ts ++ [last]) = .ok n) ↔ Derivable unit (ts.map Token.kind) := by
  constructor
  · rintro ⟨n, hn⟩
    obtain ⟨ns, b, hbare, -⟩ := ofTokens_writes hn
    exact ⟨ns, (ofTokens_eq_ok_iff h hl ns).1 ⟨n, hn, hbare⟩⟩
  · rintro ⟨ns, hns⟩
    obtain ⟨n, hn, -⟩ := (ofTokens_eq_ok_iff h hl ns).2 hns
    exact ⟨n, hn⟩

/-- The parentheses of a `print` may belong to its first argument. -/
theorem derivable_print_product :
    Derivable 0 [.keyword .kPrint, .char '(', .number 1, .char ')', .char '*', .number 3,
      .newline] := by
  have h : ∀ t ∈ ([⟨.keyword .kPrint, {}⟩, ⟨.char '(', {}⟩, ⟨.number 1, {}⟩, ⟨.char ')', {}⟩,
      ⟨.char '*', {}⟩, ⟨.number 3, {}⟩, ⟨.newline, {}⟩] : List Token), t.kind ≠ .eof := by decide
  have hl : (⟨.eof, {}⟩ : Token).kind = .eof := rfl
  exact (accepted_iff_derivable h hl).1 ⟨_, rfl⟩

/-- No text of a program has two trees, or leaves two lists of classes behind. -/
theorem Grammar.Writes.tree_unique {w : List TokenKind} {ns ms : List Node} {b d : ClassNames}
    (h : Writes unit {} (.statements ns) w b) (h' : Writes unit {} (.statements ms) w d) :
    ns = ms ∧ b = d := by
  let s : Reading := ⟨unit, {}, w.map fun k => ⟨k, {}⟩, {}, []⟩
  have hnames : s.names = {} := Reading.names_of_declared rfl
  have hkinds : s.kinds = w := by
    rw [Reading.kinds, List.map_map]
    exact List.map_id w
  rw [← hnames, ← hkinds] at h h'
  obtain ⟨n, s', hs, hn, rfl⟩ := Parser.program_complete (s := s) h
  obtain ⟨m, t, ht, hm, rfl⟩ := Parser.program_complete (s := s) h'
  rw [hs] at ht
  cases ht
  rw [hn] at hm
  cases hm
  exact ⟨rfl, rfl⟩

end ClassScript
