import ClassScript.Proofs.Acceptance
import ClassScript.Proofs.SpanRows
import ClassScript.Proofs.TokenSpans

/-!
# Spans of nodes

The span of each node of a program is a part of the text.  The nodes directly below it stand in it, one behind
the other.  Blocks that are left on the same line end at the same place, behind its margin; the zero that a sign
stands for has the place of the sign, and the nothing that is returned has that of `return`; parentheses around an
expression belong to no node.  Main statement: `ofText_nested`.
-/

namespace ClassScript

namespace Reading

variable {s s' : Reading} {ns : List Node}

theorem Lays.openClass (h : s.Lays ns s') (c : String) : s.Lays ns (s'.openClass c) := by
  obtain ⟨ts, hb, hrow⟩ := h
  exact ⟨ts, ⟨hb.rest, hb.last, hb.final⟩, hrow⟩

theorem Closes.closeClass (h : s.Closes ns s') (c : String) : s.Closes ns (s'.closeClass c) := by
  obtain ⟨ts, t, hb, ht, hrow⟩ := h
  exact ⟨ts, t, ⟨hb.rest, hb.last, hb.final⟩, ht, hrow⟩

end Reading

namespace Parser

open Grammar

variable {bound : Nat} {s s' : Reading} {n : Node}

/-! ### Statements that end with their line -/

theorem test_closing : ClosingTree (test bound) := expression_closing bound .test

theorem tests_closing {p : Parser (List Node)} (h : Closing p (·.flatMap fun n => [n])) : Closing p id := by
  intro s ns s' hs ha
  have hrow : s.Closes (ns.flatMap fun n => [n]) s' := h s ns s' hs ha
  rwa [List.flatMap_singleton'] at hrow

theorem assignment_closing : ClosingTree (assignment bound) := by
  intro s n s' hs ha
  unfold assignment at hs
  rw [bind_of_ok (peek_run s)] at hs
  obtain ⟨path, s₁, hp, h₁⟩ := bind_eq_ok.1 hs
  obtain ⟨_, s₂, he, h₂⟩ := bind_eq_ok.1 h₁
  obtain ⟨value, s₃, hv, h₃⟩ := bind_eq_ok.1 h₂
  obtain ⟨heq, rfl⟩ := expect_eq_ok.1 he
  obtain ⟨hpath, hopen⟩ := dottedName_closing bound hp ha
  have htarget := hpath.concat ha heq (by simp) (by simp)
  have hvalue := htarget.trans (test_closing _ _ _ hv (htarget.aligned ha)) ha
  clear hs h₁ h₂
  split at h₃
  · cases h₃
  · cases h₃
    exact hvalue.upTo ha hopen rfl rfl
  · cases h₃
    exact hvalue.upTo ha hopen rfl rfl

theorem lineArguments_closing {ns : List Node} (hs : lineArguments bound s = .ok (some ns, s'))
    (ha : Aligned s.rest) : s.Closes ns s' := by
  unfold lineArguments at hs
  split at hs
  · rename_i ns' s₁ hp
    split at hs
    · cases hs
      exact tests_closing (parenthesized_closing test_closing bound) _ _ _ hp ha
    · cases hs
  · cases hs

theorem printed_closing (hk : s.next.kind = .keyword .kPrint)
    (hs : printed bound s.next.span s.advance = .ok (n, s')) (ha : Aligned s.rest) : s.Closes [n] s' := by
  have hopen := Reading.opens_of_next hk (by simp)
  have hword : s.Closes [] s.advance := .token hk (by simp) (by simp)
  have ha' := hword.aligned ha
  unfold printed at hs
  obtain ⟨found, s₁, hl, hs⟩ := bind_eq_ok.1 hs
  cases found with
  | some ns =>
    cases hs
    exact (hword.trans (lineArguments_closing hl ha') ha).whole ha hopen rfl nofun
  | none =>
    obtain rfl := lineArguments_none hl
    dsimp only at hs
    rw [bind_of_ok (nextIs_run _ _)] at hs
    by_cases hn : s.advance.next.kind = .newline
    · rw [decide_eq_true hn, if_pos rfl] at hs
      cases hs
      exact hword.whole ha hopen rfl nofun
    · rw [decide_eq_false hn, if_neg (by simp)] at hs
      obtain ⟨ns, s₂, hc, hs⟩ := bind_eq_ok.1 hs
      cases hs
      have hargs := tests_closing (commaList_closing test_closing bound) _ _ _ hc ha'
      exact (hword.trans hargs ha).whole ha hopen rfl nofun

theorem returned_closing (hk : s.next.kind = .keyword .kReturn)
    (hs : returned bound s.next.span s.advance = .ok (n, s')) (ha : Aligned s.rest) : s.Closes [n] s' := by
  have hopen := Reading.opens_of_next hk (by simp)
  unfold returned at hs
  rw [bind_of_ok (nextIs_run _ _)] at hs
  by_cases hn : s.advance.next.kind = .newline
  · rw [decide_eq_true hn, if_pos rfl] at hs
    cases hs
    have hnone : s.Closes [.literal s.next.span .none] s.advance := .leaf hk ha (by simp) rfl rfl nofun
    exact hnone.upTo ha hopen rfl rfl
  · rw [decide_eq_false hn, if_neg (by simp)] at hs
    obtain ⟨e, s₁, he, hs⟩ := bind_eq_ok.1 hs
    cases hs
    have hword : s.Closes [] s.advance := .token hk (by simp) (by simp)
    exact (hword.trans (test_closing _ _ _ he (hword.aligned ha)) ha).upTo ha hopen rfl rfl

theorem simple_closing : ClosingTree (simple bound) := by
  intro s n s' hs ha
  unfold simple at hs
  rw [bind_of_ok (peek_run s)] at hs
  by_cases hr : s.next.kind = .keyword .kReturn
  · rw [bind_of_ok (accept_of_next hr)] at hs
    exact returned_closing hr hs ha
  rw [bind_of_ok (accept_of_ne hr), if_neg (by simp)] at hs
  by_cases hp : s.next.kind = .keyword .kPrint
  · rw [bind_of_ok (accept_of_next hp)] at hs
    exact printed_closing hp hs ha
  rw [bind_of_ok (accept_of_ne hp), if_neg (by simp)] at hs
  change (if isAssignment s.rest then _ else _ : Parser Node) s = _ at hs
  split at hs
  · exact assignment_closing s n s' hs ha
  · exact test_closing s n s' hs ha

/-! ### Blocks -/

section

variable {stmt : Parser Node} (h : ClosingTree stmt)
include h

theorem suite_closing : ClosingTree (suite bound stmt) := by
  intro s n s' hs ha
  unfold suite at hs
  obtain ⟨_, s₁, he, hs⟩ := bind_eq_ok.1 hs
  obtain ⟨hnew, rfl⟩ := expect_eq_ok.1 he
  rw [bind_of_ok (peek_run _)] at hs
  obtain ⟨_, s₂, he, hs⟩ := bind_eq_ok.1 hs
  obtain ⟨hin, rfl⟩ := expect_eq_ok.1 he
  obtain ⟨ns, s₃, hm, hs⟩ := bind_eq_ok.1 hs
  obtain ⟨_, s₄, he, hs⟩ := bind_eq_ok.1 hs
  obtain ⟨hout, rfl⟩ := expect_eq_ok.1 he
  cases hs
  -- a block begins behind the end of the line before it
  have hline : s.Lays [] s.advance := .token hnew (by simp)
  have ha₁ := hline.aligned ha
  have hindent : s.advance.Lays [] s.advance.advance := .token hin (by simp)
  have hbody := manyUntil_lays h endsBlock bound hm (hindent.aligned ha₁)
  rw [List.flatMap_singleton'] at hbody
  have hblock : s.advance.Closes ns s₃.advance := by
    have := (hindent.trans hbody ha₁).closes (.token hout (by simp) (by simp)) ha₁
    rwa [List.append_nil] at this
  exact hline.closes (hblock.whole ha₁ (Reading.opens_of_next hin (by simp)) rfl nofun) ha

theorem conditional_closing : ClosingTree (conditional bound stmt) := by
  intro s n s' hs ha
  unfold conditional at hs
  rw [bind_of_ok (peek_run s)] at hs
  obtain ⟨_, s₁, he, hs⟩ := bind_eq_ok.1 hs
  obtain ⟨hif, rfl⟩ := expect_eq_ok.1 he
  obtain ⟨c, s₂, hc, hs⟩ := bind_eq_ok.1 hs
  obtain ⟨_, s₃, he, hs⟩ := bind_eq_ok.1 hs
  obtain ⟨hcolon, rfl⟩ := expect_eq_ok.1 he
  obtain ⟨yes, s₄, hy, hs⟩ := bind_eq_ok.1 hs
  have hopen := Reading.opens_of_next hif (by simp)
  have hword : s.Closes [] s.advance := .token hif (by simp) (by simp)
  have hcond := hword.trans (test_closing _ _ _ hc (hword.aligned ha)) ha
  have hline := hcond.concat ha hcolon (by simp) (by simp)
  have hyes := hline.trans (suite_closing h _ _ _ hy (hline.aligned ha)) ha
  by_cases helse : s₄.next.kind = .keyword .kElse
  · rw [bind_of_ok (accept_of_next helse), if_pos rfl] at hs
    obtain ⟨_, s₅, he, hs⟩ := bind_eq_ok.1 hs
    obtain ⟨hcolon', rfl⟩ := expect_eq_ok.1 he
    obtain ⟨no, s₆, hn, hs⟩ := bind_eq_ok.1 hs
    cases hs
    have hmid := (hyes.concat ha helse (by simp) (by simp)).concat ha hcolon' (by simp) (by simp)
    exact (hmid.trans (suite_closing h _ _ _ hn (hmid.aligned ha)) ha).whole ha hopen rfl nofun
  · rw [bind_of_ok (accept_of_ne helse), if_neg (by simp)] at hs
    cases hs
    exact hyes.whole ha hopen rfl nofun

/-! ### Classes -/

theorem method_closing : Closing (method bound stmt) fun m => [m.body] := by
  intro s m s' hs ha
  unfold method at hs
  rw [bind_of_ok (peek_run s)] at hs
  obtain ⟨_, s₁, he, hs⟩ := bind_eq_ok.1 hs
  obtain ⟨hdef, rfl⟩ := expect_eq_ok.1 he
  obtain ⟨x, s₂, he, hs⟩ := bind_eq_ok.1 hs
  obtain ⟨hx, rfl⟩ := expectName_eq_ok.1 he
  obtain ⟨params, s₃, hp, hs⟩ := bind_eq_ok.1 hs
  obtain ⟨_, s₄, he, hs⟩ := bind_eq_ok.1 hs
  obtain ⟨hcolon, rfl⟩ := expect_eq_ok.1 he
  obtain ⟨body, s₅, hb, hs⟩ := bind_eq_ok.1 hs
  cases hs
  have hword : s.Closes [] s.advance := .token hdef (by simp) (by simp)
  have hname := hword.concat ha hx (by simp) (by simp)
  have hparams : s.advance.advance.Closes (params.flatMap fun _ => []) s₃ :=
    parenthesized_closing expectName_closing bound _ _ _ hp (hname.aligned ha)
  have hheader := hname.trans hparams ha
  have hempty : (params.flatMap fun _ => []) = ([] : List Node) := by simp
  rw [hempty] at hheader
  have hline := hheader.concat ha hcolon (by simp) (by simp)
  have hbody := hline.trans (suite_closing h _ _ _ hb (hline.aligned ha)) ha
  exact hbody.whole ha (Reading.opens_of_next hdef (by simp)) rfl nofun

omit h in
theorem parentClass_lays {parent : Option ClassId} (hs : parentClass s = .ok (parent, s')) (ha : Aligned s.rest) :
    s.Lays [] s' := by
  unfold parentClass at hs
  by_cases hb : s.next.kind = .char '('
  · rw [bind_of_ok (accept_of_next hb), if_pos rfl] at hs
    obtain ⟨x, s₁, he, hs⟩ := bind_eq_ok.1 hs
    obtain ⟨hx, rfl⟩ := expectName_eq_ok.1 he
    change (if s.advance.advance.finishes x then _ else _ : Parser (Option ClassId)) _ = _ at hs
    split at hs
    · obtain ⟨_, s₂, he, hs⟩ := bind_eq_ok.1 hs
      obtain ⟨hc, rfl⟩ := expect_eq_ok.1 he
      cases hs
      have hopen : s.Lays [] s.advance := .token hb (by simp)
      exact (hopen.concat ha hx (by simp)).concat ha hc (by simp)
    · cases hs
  · rw [bind_of_ok (accept_of_ne hb), if_neg (by simp)] at hs
    cases hs
    exact .refl _

/-- The word `class` and the name of the class have been taken. -/
theorem classBody_closing {c : String} {s₀ : Reading} (hs : classBody bound stmt s₀.next.span c s = .ok (n, s'))
    (ha : Aligned s₀.rest) (hopen : s₀.next.Opens) (hname : s₀.Lays [] s) : s₀.Closes [n] s' := by
  unfold classBody at hs
  obtain ⟨parent, s₁, hp, hs⟩ := bind_eq_ok.1 hs
  obtain ⟨_, s₂, he, hs⟩ := bind_eq_ok.1 hs
  obtain ⟨hcolon, rfl⟩ := expect_eq_ok.1 he
  obtain ⟨_, s₃, he, hs⟩ := bind_eq_ok.1 hs
  obtain ⟨hnew, rfl⟩ := expect_eq_ok.1 he
  obtain ⟨_, s₄, he, hs⟩ := bind_eq_ok.1 hs
  obtain ⟨hin, rfl⟩ := expect_eq_ok.1 he
  obtain ⟨_, t, ho, hs⟩ := bind_eq_ok.1 hs
  cases ho
  obtain ⟨first, s₅, hf, hs⟩ := bind_eq_ok.1 hs
  obtain ⟨others, s₆, hm, hs⟩ := bind_eq_ok.1 hs
  obtain ⟨_, s₇, he, hs⟩ := bind_eq_ok.1 hs
  obtain ⟨hout, rfl⟩ := expect_eq_ok.1 he
  obtain ⟨_, t, ho, hs⟩ := bind_eq_ok.1 hs
  cases ho
  cases hs
  have hheader := hname.trans (parentClass_lays hp (hname.aligned ha)) ha
  have hline := (hheader.concat ha hcolon (by simp)).concat ha hnew (by simp)
  have hopened := (hline.concat ha hin (by simp)).openClass c
  have hfirst := hopened.closes (method_closing h _ _ _ hf (hopened.aligned ha)) ha
  have hothers := manyUntil_lays (method_closing h) endsBlock bound hm (hfirst.aligned ha)
  rw [← List.map_eq_flatMap] at hothers
  have hbody := (hfirst.lays.trans hothers ha).closes (.token hout (by simp) (by simp)) ha
  rw [List.append_nil] at hbody
  exact (hbody.closeClass c).whole ha hopen rfl nofun

theorem classDefinition_closing : ClosingTree (classDefinition bound stmt) := by
  intro s n s' hs ha
  unfold classDefinition at hs
  rw [bind_of_ok (peek_run s)] at hs
  obtain ⟨_, s₁, he, hs⟩ := bind_eq_ok.1 hs
  obtain ⟨hclass, rfl⟩ := expect_eq_ok.1 he
  obtain ⟨c, s₂, he, hs⟩ := bind_eq_ok.1 hs
  obtain ⟨hc, rfl⟩ := expectName_eq_ok.1 he
  change (if s.advance.advance.declares c then _ else _ : Parser Node) _ = _ at hs
  split at hs
  · cases hs
  · have hword : s.Lays [] s.advance := .token hclass (by simp)
    exact classBody_closing h hs ha (Reading.opens_of_next hclass (by simp)) (hword.concat ha hc (by simp))

/-! ### All statements -/

theorem statementOver_closing : ClosingTree (statementOver bound stmt) := by
  intro s n s' hs ha
  unfold statementOver at hs
  rw [bind_of_ok (peek_run s)] at hs
  obtain ⟨p, hp, hs⟩ : ∃ p : Parser Node, _ = p ∧ p s = .ok (n, s') := ⟨_, rfl, hs⟩
  split at hp
  · subst hp
    exact classDefinition_closing h s n s' hs ha
  · subst hp
    exact conditional_closing h s n s' hs ha
  · subst hp
    cases hs
  · subst hp
    obtain ⟨m, s₁, hm, hs⟩ := bind_eq_ok.1 hs
    obtain ⟨_, s₂, he, hs⟩ := bind_eq_ok.1 hs
    obtain ⟨hnew, rfl⟩ := expect_eq_ok.1 he
    obtain ⟨rfl, rfl⟩ := pure_eq_ok.1 hs
    exact (simple_closing _ _ _ hm ha).concat ha hnew (by simp) (by simp)

end

/-- A statement is one tree over the tokens that it is read from. -/
theorem statement_closing (n : Nat) : ClosingTree (statement n) := by
  induction n with
  | zero =>
    intro s n s' hs
    cases hs
  | succ n ih => exact statementOver_closing ih

end Parser

/-! ### Places of tokens -/

namespace Source

/-- Tokens of one piece are marks of levels, or such marks and the end mark behind them. -/
def Piece.Lined (q : Piece) : Prop := q.kinds.Pairwise fun j k => j = .indent ∨ k = .dedent ∨ k = .eof

theorem lined_scanBody (cs : List Char) : ∀ q ∈ (scanBody cs).pieces, q.Lined := by
  fun_induction scanBody cs with
  | case1 => exact List.forall_mem_singleton.2 (List.pairwise_singleton _ _)
  | case2 => exact List.forall_mem_singleton.2 (List.pairwise_singleton _ _)
  | case3 c cs _ _ ih => exact List.forall_mem_cons.2 ⟨.nil, ih⟩
  | case4 cs _ _ ih => exact List.forall_mem_cons.2 ⟨.nil, ih⟩
  | case5 c cs _ _ _ k n _ ih => exact List.forall_mem_cons.2 ⟨List.pairwise_singleton _ _, ih⟩
  | case6 => exact List.forall_mem_nil _

theorem lined_scanLine (level : Nat) (line : List Char) : ∀ q ∈ (scanLine level line).1.pieces, q.Lined := by
  rcases scanLine_cases line with ⟨f, text, h⟩ | ⟨margin, body, -, -, ⟨-, h⟩ | ⟨new, h⟩⟩
  · rw [h]
    exact List.forall_mem_nil _
  · rw [h]
    exact List.forall_mem_singleton.2 .nil
  · rw [h]
    refine List.forall_mem_cons.2 ⟨?_, lined_scanBody body⟩
    show List.Pairwise _ (levelMarks level new)
    unfold levelMarks
    split
    · exact List.pairwise_replicate.2 (.inr (.inl rfl))
    · exact List.pairwise_replicate.2 (.inr (.inr (.inl rfl)))

theorem lined_scan (text : List Char) : ∀ q ∈ (scan text).pieces, q.Lined := by
  refine forall_mem_scanLines 0 (fun l _ level => lined_scanLine level l) fun level => ?_
  refine List.pairwise_append.2 ⟨?_, List.pairwise_singleton _ _, fun j _ k hk => ?_⟩
  · exact List.pairwise_replicate.2 (.inr (.inr (.inl rfl)))
  · exact .inr (.inr (List.mem_singleton.1 hk))

theorem pairwise_before_locate {p : Cursor} {qs : List Piece} (h : ∀ q ∈ qs, q.Lined) :
    (locate p qs).Pairwise Token.Before := by
  refine pairwise_locate_of (fun q hq => List.Pairwise.imp ?_ (h q hq)) fun t u hle hbefore hle' => ?_
  · rintro j k hjk s
    refine ⟨le_refl _, le_refl _, fun hclose hopen => ?_⟩
    rcases hjk with rfl | rfl | rfl
    · exact absurd rfl hclose
    · exact absurd rfl hopen.1
    · exact absurd rfl hopen.2
  · exact ⟨hle.trans hbefore, hbefore.trans hle', fun _ _ => hbefore⟩

theorem aligned_tokens {text : String} {ts : List Token} (h : tokens text = .ok ts) : Aligned ts := by
  obtain ⟨-, rfl⟩ := eq_locate_of_tokens h
  refine ⟨fun t ht => ?_, pairwise_before_locate (lined_scan _)⟩
  obtain ⟨-, hle, -, -⟩ := bounds_of_mem_locate ht
  exact hle

/-- The span of a token is that of a part of the text. -/
theorem exists_marks {text : String} {ts : List Token} (h : tokens text = .ok ts) {t : Token} (ht : t ∈ ts) :
    ∃ before part, Marks text t.span before part := by
  obtain ⟨hfault, rfl⟩ := eq_locate_of_tokens h
  obtain ⟨front, q, back, hpieces, -, hspan⟩ := exists_of_mem_locate ht
  have htexts : texts (front ++ q :: back) = text.toList := hpieces ▸ texts_scan hfault
  exact ⟨_, _, hspan ▸ marks_of_piece htexts⟩

/-- Of two beginnings of a text the longer one goes on from the other. -/
theorem exists_eq_append {a b x y : String} (h : a ++ x = b ++ y) (hle : a.utf8ByteSize ≤ b.utf8ByteSize) :
    ∃ c, b = a ++ c := by
  have hlist : a.toList ++ x.toList = b.toList ++ y.toList := by
    rw [← String.toList_append, ← String.toList_append, h]
  rcases List.append_eq_append_iff.1 hlist with ⟨z, hz, -⟩ | ⟨z, hz, -⟩
  · exact ⟨.ofList z, String.toList_injective (by rw [hz, String.toList_append, String.toList_ofList])⟩
  · obtain rfl : a = b ++ .ofList z :=
      String.toList_injective (by rw [hz, String.toList_append, String.toList_ofList])
    rw [String.utf8ByteSize_append] at hle
    have hnil : String.ofList z = "" := String.utf8ByteSize_eq_zero_iff.1 (by omega)
    rw [hnil, String.append_empty]
    exact ⟨"", String.append_empty.symm⟩

/-- From the beginning of one part of a text to the end of another. -/
theorem Marks.upTo {text before part before' part' : String} {a b : Span} (ha : Marks text a before part)
    (hb : Marks text b before' part') (hle : a.start ≤ b.stop) :
    ∃ between, Marks text ⟨a.start, b.stop, a.line, a.column⟩ before between := by
  obtain ⟨after, htext⟩ := ha.split
  obtain ⟨after', htext'⟩ := hb.split
  rw [ha.start, hb.stop] at hle
  rw [String.append_assoc] at htext
  obtain ⟨between, hbetween⟩ := exists_eq_append (htext.symm.trans htext') hle
  refine ⟨between, ⟨after', ?_⟩, ha.start, ?_, ha.line, ha.column⟩
  · rw [← hbetween, ← htext']
  · rw [← hbetween]
    exact hb.stop

end Source

/-! ### Whole programs -/

namespace Node

/-- The span of a node is that of a part of the text, with the line and the column that it begins at.  The nodes
directly below it stand in this part, one behind the other. -/
structure Nested (text : String) (n : Node) : Prop where
  bounds : n.span.start ≤ n.span.stop ∧ n.span.stop ≤ text.utf8ByteSize ∧
    (String.Pos.Raw.mk n.span.start).IsValid text ∧ (String.Pos.Raw.mk n.span.stop).IsValid text
  place : ∃ before part, Source.Marks text n.span before part
  within : ∀ c ∈ n.children, n.span.start ≤ c.span.start ∧ c.span.stop ≤ n.span.stop
  apart : n.children.Pairwise Apart

variable {text : String} {ts : List Token} {n : Node}

theorem nested_of_marks {before part : String} (h : Source.Marks text n.span before part)
    (hwithin : ∀ c ∈ n.children, n.span.start ≤ c.span.start ∧ c.span.stop ≤ n.span.stop)
    (hapart : n.children.Pairwise Apart) : n.Nested text :=
  ⟨h.bounds, ⟨before, part, h⟩, hwithin, hapart⟩

theorem Spans.nested (h : n.Spans ts) (hmarks : ∀ t ∈ ts, ∃ before part, Source.Marks text t.span before part) :
    n.Nested text := by
  obtain ⟨t, ht, -, hstart, hline, hcolumn⟩ := h.begins
  obtain ⟨u, hu, -, hstop⟩ := h.ends
  obtain ⟨before, part, hfirst⟩ := hmarks t ht
  obtain ⟨before', part', hlast⟩ := hmarks u hu
  have hle : t.span.start ≤ u.span.stop := hstart ▸ hstop ▸ h.le
  obtain ⟨between, hbetween⟩ := hfirst.upTo hlast hle
  rw [← hstart, ← hstop, ← hline, ← hcolumn] at hbetween
  exact nested_of_marks hbetween h.within h.apart

end Node

/-- The statements of a program that is read follow one another up to the end mark. -/
theorem Parser.program_lays {s s' : Reading} {root : Node} (heof : .eof ∉ s.kinds)
    (hs : program s.rest.length s = .ok (root, s')) (ha : Aligned s.rest) :
    ∃ body, root = .block (s.next.span.merge s.final) body ∧ Row s.rest body := by
  have hend := program_end heof hs
  unfold program at hs
  rw [bind_of_ok (peek_run s)] at hs
  obtain ⟨body, s₁, hm, hs⟩ := bind_eq_ok.1 hs
  cases hs
  have hlays := manyUntil_lays (statement_closing _) (· = .eof) _ hm ha
  rw [List.flatMap_singleton'] at hlays
  obtain ⟨ts, hbehind, hrow⟩ := hlays
  have hnil : s'.rest = [] := List.map_eq_nil_iff.1 hend
  have hnext : s'.next.span = s.final := by
    rw [Reading.next, Reading.ahead, hnil, ← hbehind.final]
    rfl
  rw [hbehind.rest, hnil, List.append_nil]
  exact ⟨body, by rw [hnext], hrow⟩

/-- A program spans its first token and its end mark, which may be the same. -/
theorem Row.root_nested {text : String} {ts us : List Token} {first last : Token} {body : List Node}
    (hrow : Row ts body) (ha : Aligned (ts ++ [last])) (hfirst : ts ++ [last] = first :: us)
    (hmarks : ∀ t ∈ ts ++ [last], ∃ before part, Source.Marks text t.span before part) :
    (Node.block (first.span.merge last.span) body).All (Node.Nested text) := by
  have hmem : last ∈ ts ++ [last] := by simp
  have hle : ∀ u ∈ ts ++ [last], first.span.start ≤ u.span.start ∧ first.span.stop ≤ u.span.stop := by
    rw [hfirst] at ha ⊢
    exact ha.first_le
  obtain ⟨hstart, hstop⟩ := hle last hmem
  rw [Span.merge_of_le hstart hstop]
  obtain ⟨before, part, hhead⟩ := hmarks first (hfirst ▸ List.mem_cons_self)
  obtain ⟨before', part', hend⟩ := hmarks last hmem
  obtain ⟨between, hwhole⟩ := hhead.upTo hend (hstart.trans (ha.proper last hmem))
  refine .of_children (Node.nested_of_marks hwhole (fun c hc => ?_) hrow.apart) fun c hc => ?_
  · exact ⟨(hrow.self hc).begins.le_start fun u hu => (hle u (List.mem_append_left _ hu)).1,
      (hrow.self hc).ends.stop_le fun u hu => (ha.le_last u (List.mem_append_left _ hu)).2⟩
  · exact (hrow.spans c hc).mono fun m hm => hm.nested fun u hu => hmarks u (List.mem_append_left _ hu)

/-- The tokens of a program that has been read, and its statements, which follow one another up to the last token. -/
theorem Parser.ofText_lays {unit : Nat} {text : String} {root : Node} (h : Node.ofText unit text = .ok root) :
    ∃ ts first us last body, Source.tokens text = .ok (ts ++ [last]) ∧ ts ++ [last] = first :: us ∧
      root = .block (first.span.merge last.span) body ∧ Row ts body := by
  obtain ⟨tokens, htokens, hread⟩ := Node.ofText_eq_ok_iff.1 h
  obtain ⟨ts, last, rfl, hlast, hne⟩ := Source.tokens_ended htokens
  have haligned := Source.aligned_tokens htokens
  obtain ⟨s', hs⟩ := ofTokens_eq_ok.1 hread
  have hrest : (Reading.ofTokens unit (ts ++ [last])).rest = ts := Reading.rest_ofTokens hne hlast
  have hfinal : (Reading.ofTokens unit (ts ++ [last])).final = last.span := Reading.final_ofTokens hne hlast
  have heof : .eof ∉ (Reading.ofTokens unit (ts ++ [last])).kinds := by
    rw [Reading.kinds, hrest]
    simpa using hne
  obtain ⟨body, rfl, hrow⟩ := Parser.program_lays heof hs (hrest.symm ▸ haligned.left)
  obtain ⟨first, us, hfirst, hnext⟩ : ∃ first us, ts ++ [last] = first :: us ∧
      (Reading.ofTokens unit (ts ++ [last])).next.span = first.span := by
    rw [Reading.next, Reading.ahead, hrest, hfinal]
    cases ts with
    | nil => exact ⟨last, [], rfl, rfl⟩
    | cons t us => exact ⟨t, us ++ [last], rfl, rfl⟩
  rw [hrest] at hrow
  exact ⟨ts, first, us, last, body, htokens, hfirst, by rw [hnext, hfinal], hrow⟩

/-- The spans of a program that has been read are those of parts of its text, nested as its nodes are and in the
order of the text. -/
theorem ofText_nested {unit : Nat} {text : String} {root : Node} (h : Node.ofText unit text = .ok root) :
    root.All (Node.Nested text) := by
  obtain ⟨ts, first, us, last, body, htokens, hfirst, rfl, hrow⟩ := Parser.ofText_lays h
  exact hrow.root_nested (Source.aligned_tokens htokens) hfirst fun t ht => Source.exists_marks htokens ht

/-- The zero of `-a` has the place of the sign, and what is not returned that of `return`. -/
theorem ofText_nested_unwritten :
    let root : Node := .block ⟨0, 16, 1, 1⟩ [.ifElse ⟨0, 16, 1, 1⟩
      (.arith ⟨3, 5, 1, 4⟩ .sub (.literal ⟨3, 4, 1, 4⟩ (.int 0)) (.lookup ⟨4, 5, 1, 5⟩ ["a"]))
      (.block ⟨7, 16, 2, 1⟩ [.ret ⟨9, 15, 2, 3⟩ (.literal ⟨9, 15, 2, 3⟩ .none)]) none]
    Node.ofText 0 "if -a:\n  return\n" = .ok root ∧ root.All (Node.Nested "if -a:\n  return\n") := by
  intro root
  let ts : List Token := [⟨.keyword .kIf, ⟨0, 2, 1, 1⟩⟩, ⟨.char '-', ⟨3, 4, 1, 4⟩⟩, ⟨.name "a", ⟨4, 5, 1, 5⟩⟩,
    ⟨.char ':', ⟨5, 6, 1, 6⟩⟩, ⟨.newline, ⟨6, 7, 1, 7⟩⟩, ⟨.indent, ⟨7, 9, 2, 1⟩⟩,
    ⟨.keyword .kReturn, ⟨9, 15, 2, 3⟩⟩, ⟨.newline, ⟨15, 16, 2, 9⟩⟩, ⟨.dedent, ⟨16, 16, 3, 1⟩⟩,
    ⟨.eof, ⟨16, 16, 3, 1⟩⟩]
  have htokens : Source.tokens "if -a:\n  return\n" = .ok ts := by decide +kernel
  have hread : Node.ofTokens 0 ts = .ok root := rfl
  have h := Node.ofText_eq_ok_iff.2 ⟨ts, htokens, hread⟩
  exact ⟨h, ofText_nested h⟩

end ClassScript
