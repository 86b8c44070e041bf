import ClassScript.Proofs.NodeSpans

/-!
# Spans of variables

A variable has the span of its path: it begins with the first name, ends with the last, and no other token of the
text has a part in it.  There is one exception.  The last name of a path in front of a bracket is the name of a
method, and the names before it are the receiver of the call; this receiver has the span of all the names, as the
reader takes its end from the last token and not from the last name that is left.  Main statement:
`ofText_pathsSpanned`.
-/

namespace ClassScript

open Grammar (pathText)

namespace Source

/-- Tokens one of which stands for a word have nothing in common. -/
def Clear (t u : Token) : Prop :=
  t.kind.isContent = true ∨ u.kind.isContent = true → t.span.stop ≤ u.span.start

theorem Piece.Proper.clear {q : Piece} (h : q.Proper) :
    q.kinds.Pairwise fun j k => ∀ s, Clear ⟨j, s⟩ ⟨k, s⟩ := by
  cases h with
  | word => exact List.pairwise_singleton _ _
  | stop => exact List.pairwise_singleton _ _
  | marks hmarks =>
    have hmark (k : TokenKind) (hk : k.isSolid = false) : k.isContent ≠ true := by
      rw [TokenKind.isSolid, Bool.or_eq_false_iff] at hk
      rw [hk.1]
      exact Bool.false_ne_true
    refine List.Pairwise.imp_of_mem (R := fun _ _ => True) ?_ (List.pairwise_of_forall fun _ _ => trivial)
    intro j k hj hk _ s hcontent
    exact absurd hcontent (not_or.2 ⟨hmark j (hmarks j hj), hmark k (hmarks k hk)⟩)

theorem clear_tokens {text : String} {ts : List Token} (h : tokens text = .ok ts) : ts.Pairwise Clear := by
  obtain ⟨-, rfl⟩ := eq_locate_of_tokens h
  exact pairwise_locate_of (fun q hq => (proper_scan _ q hq).clear) fun _ _ _ hbefore _ _ => hbefore

end Source

namespace Span

/-- A span is that of a path among the tokens of a text: it goes from the first token of the path to the last, and
every other token stands before it or behind it.  Tokens of the kinds `next` follow the path. -/
def OfPath (ts : List Token) (path : List String) (next : List TokenKind) (s : Span) : Prop :=
  ∃ front own back, ts = front ++ own ++ back ∧ own.map Token.kind = pathText path ∧
    next <+: back.map Token.kind ∧ s.Joins own ∧
    (∀ t ∈ front, t.span.stop ≤ s.start) ∧ ∀ t ∈ back, s.stop ≤ t.span.start

variable {ts own : List Token} {path : List String} {next : List TokenKind} {s : Span}

/-- The tokens of a path are names and dots. -/
theorem isContent_of_mem (h : own.map Token.kind = pathText path) {t : Token} (ht : t ∈ own) :
    t.kind.isContent = true := by
  have hmem : t.kind ∈ pathText path := h ▸ List.mem_map_of_mem ht
  obtain hdot | ⟨x, hname⟩ := Grammar.mem_pathText hmem
  · rw [hdot]
    rfl
  · rw [hname]
    rfl

theorem Covers.ofPath (h : s.Covers ts path next) (hclear : ts.Pairwise Source.Clear) : s.OfPath ts path next := by
  obtain ⟨own, us, ⟨front, back, rfl⟩, hpath, rfl, hjoins⟩ := h
  obtain ⟨first, hfirst, hstart, -⟩ := hjoins.begins
  obtain ⟨last, hlast, hstop⟩ := hjoins.ends
  have hfirst : first ∈ own := List.mem_of_mem_head? hfirst
  have hlast : last ∈ own := List.mem_of_mem_getLast? hlast
  rw [← List.append_assoc, List.append_assoc (front ++ own)] at hclear ⊢
  obtain ⟨hleft, -, hbehind⟩ := List.pairwise_append.1 hclear
  obtain ⟨-, -, hbefore⟩ := List.pairwise_append.1 hleft
  refine ⟨front, own, us ++ back, rfl, hpath, ?_, hjoins, fun t ht => ?_, fun t ht => ?_⟩
  · rw [List.map_append]
    exact List.prefix_append _ _
  · rw [hstart]
    exact hbefore t ht first hfirst (.inr (isContent_of_mem hpath hfirst))
  · rw [hstop]
    exact hbehind last (List.mem_append_right _ hlast) t ht (.inl (isContent_of_mem hpath hlast))

/-- The last token of a path is its last name. -/
theorem OfPath.exists_last {m : String} (h : s.OfPath ts (path ++ [m]) next) :
    ∃ t ∈ ts, t.kind = .name m ∧ s.stop = t.span.stop := by
  obtain ⟨front, own, back, rfl, hpath, -, ⟨-, t, ht, hstop⟩, -⟩ := h
  have hmem : t ∈ own := List.mem_of_mem_getLast? ht
  have hname : (pathText (path ++ [m])).getLast? = some (.name m) := by
    rcases List.eq_nil_or_concat path with rfl | ⟨names, x, rfl⟩
    · rfl
    · rw [Parser.pathText_concat (by simp), List.getLast?_append]
      rfl
  rw [← hpath, List.getLast?_map, Option.mem_def.1 ht] at hname
  exact ⟨t, List.mem_append_left _ (List.mem_append_right _ hmem), Option.some.inj hname, hstop⟩

end Span

namespace Node

/-- The variables directly below a node have the spans of their paths.  Only the receiver of a call that is written
with dots, as in `a.b.m(x)`, has the span of `a.b.m`. -/
def PathsSpanned (ts : List Token) (n : Node) : Prop :=
  ∀ a path, lookup a path ∈ n.children → a.OfPath ts path [] ∨
    ∃ b m args, n = call b (lookup a path) m args ∧ a.OfPath ts (path ++ [m]) [.char '(']

theorem NamesCovered.pathsSpanned {ts : List Token} {n : Node} (h : n.NamesCovered ts)
    (hclear : ts.Pairwise Source.Clear) : n.PathsSpanned ts := by
  intro a path hc
  rcases h a path hc with hown | ⟨b, m, args, hn, hcallee⟩
  · exact .inl (hown.ofPath hclear)
  · exact .inr ⟨b, m, args, hn, hcallee.ofPath hclear⟩

end Node

/-- A program that has been read is no variable, and every variable in it has the span of its path, but for the
receivers of calls that are written with dots: their spans end with the name of the method. -/
theorem ofText_pathsSpanned {unit : Nat} {text : String} {root : Node} (h : Node.ofText unit text = .ok root) :
    ∃ ts, Source.tokens text = .ok ts ∧ (∀ a path, root ≠ .lookup a path) ∧ root.All (Node.PathsSpanned ts) := by
  obtain ⟨ts, first, us, last, body, htokens, -, rfl, hrow⟩ := Parser.ofText_lays h
  have hclear := Source.clear_tokens htokens
  refine ⟨_, htokens, nofun, .of_children ?_ fun c hc => ?_⟩
  · exact fun a path hc => .inl (((hrow.names a path hc).mono List.infix_append_left).ofPath hclear)
  · exact (hrow.spans c hc).mono fun m hm => (hm.names.mono List.infix_append_left).pathsSpanned hclear

/-- A receiver in parentheses, and one that is written with dots. -/
theorem ofText_pathsSpanned_receivers :
    let root : Node := .block ⟨0, 17, 1, 1⟩ [.call ⟨1, 16, 1, 2⟩ (.lookup ⟨1, 4, 1, 2⟩ ["a", "b"]) "m"
      [.call ⟨8, 15, 1, 9⟩ (.lookup ⟨8, 13, 1, 9⟩ ["c", "d"]) "n" []]]
    Node.ofText 0 "(a.b).m(c.d.n())\n" = .ok root ∧ ∃ ts, root.All (Node.PathsSpanned ts) := by
  intro root
  let ts : List Token := [⟨.char '(', ⟨0, 1, 1, 1⟩⟩, ⟨.name "a", ⟨1, 2, 1, 2⟩⟩, ⟨.char '.', ⟨2, 3, 1, 3⟩⟩,
    ⟨.name "b", ⟨3, 4, 1, 4⟩⟩, ⟨.char ')', ⟨4, 5, 1, 5⟩⟩, ⟨.char '.', ⟨5, 6, 1, 6⟩⟩, ⟨.name "m", ⟨6, 7, 1, 7⟩⟩,
    ⟨.char '(', ⟨7, 8, 1, 8⟩⟩, ⟨.name "c", ⟨8, 9, 1, 9⟩⟩, ⟨.char '.', ⟨9, 10, 1, 10⟩⟩, ⟨.name "d", ⟨10, 11, 1, 11⟩⟩,
    ⟨.char '.', ⟨11, 12, 1, 12⟩⟩, ⟨.name "n", ⟨12, 13, 1, 13⟩⟩, ⟨.char '(', ⟨13, 14, 1, 14⟩⟩,
    ⟨.char ')', ⟨14, 15, 1, 15⟩⟩, ⟨.char ')', ⟨15, 16, 1, 16⟩⟩, ⟨.newline, ⟨16, 17, 1, 17⟩⟩,
    ⟨.eof, ⟨17, 17, 2, 1⟩⟩]
  have htokens : Source.tokens "(a.b).m(c.d.n())\n" = .ok ts := by decide +kernel
  have hread : Node.ofTokens 0 ts = .ok root := rfl
  have h := Node.ofText_eq_ok_iff.2 ⟨ts, htokens, hread⟩
  obtain ⟨us, -, -, hall⟩ := ofText_pathsSpanned h
  exact ⟨h, us, hall⟩

/-- The receiver of `a.b.m(1)` is the variable `a.b`, but no `b` ends where its span does. -/
theorem ofText_not_ofPath :
    let object : Node := .lookup ⟨0, 5, 1, 1⟩ ["a", "b"]
    let root : Node := .block ⟨0, 9, 1, 1⟩ [.call ⟨0, 8, 1, 1⟩ object "m" [.literal ⟨6, 7, 1, 7⟩ (.int 1)]]
    ∃ ts, Source.tokens "a.b.m(1)\n" = .ok ts ∧ Node.ofText 0 "a.b.m(1)\n" = .ok root ∧ root.Has object ∧
      ¬ object.span.OfPath ts ["a", "b"] [] := by
  intro object root
  let ts : List Token := [⟨.name "a", ⟨0, 1, 1, 1⟩⟩, ⟨.char '.', ⟨1, 2, 1, 2⟩⟩, ⟨.name "b", ⟨2, 3, 1, 3⟩⟩,
    ⟨.char '.', ⟨3, 4, 1, 4⟩⟩, ⟨.name "m", ⟨4, 5, 1, 5⟩⟩, ⟨.char '(', ⟨5, 6, 1, 6⟩⟩, ⟨.number 1, ⟨6, 7, 1, 7⟩⟩,
    ⟨.char ')', ⟨7, 8, 1, 8⟩⟩, ⟨.newline, ⟨8, 9, 1, 9⟩⟩, ⟨.eof, ⟨9, 9, 2, 1⟩⟩]
  have htokens : Source.tokens "a.b.m(1)\n" = .ok ts := by decide +kernel
  have hread : Node.ofTokens 0 ts = .ok root := rfl
  have hhas : root.Has object := .child List.mem_cons_self (.child List.mem_cons_self (.self object))
  refine ⟨ts, htokens, Node.ofText_eq_ok_iff.2 ⟨ts, htokens, hread⟩, hhas, fun hspan => ?_⟩
  have hspan : object.span.OfPath ts (["a"] ++ ["b"]) [] := hspan
  obtain ⟨t, ht, hkind, hstop⟩ := hspan.exists_last
  have hb : ∀ t ∈ ts, t.kind = .name "b" → t.span.stop ≠ 5 := by decide
  exact hb t ht hkind hstop.symm

end ClassScript
