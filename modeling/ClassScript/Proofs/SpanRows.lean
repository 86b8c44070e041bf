import ClassScript.Proofs.StatementSound

/-!
# Spans in the order of the tokens

A reader that takes tokens in the order of the text makes nodes whose spans are nested.  `s.Closes ns s'` says
that the trees `ns` have been read between `s` and `s'`, one behind the other; a node with these trees below it
that spans the same tokens is again one tree in place of them.  The trees in a row that are variables have the spans
of their paths.  Main statements: one rule for each way in which a reader puts the span of a node together, and
`expression_closing` for all expressions.
-/

namespace ClassScript

/-! ### Tokens in order -/

namespace Token

/-- A token that a node may begin with. -/
def Opens (t : Token) : Prop := t.kind ≠ .dedent ∧ t.kind ≠ .eof

/-- A token that a node may end with. -/
def Closes (t : Token) : Prop := t.kind ≠ .indent

/-- One token stands before another.  The marks of levels that begin a line have its margin in common. -/
structure Before (t u : Token) : Prop where
  start : t.span.start ≤ u.span.start
  stop : t.span.stop ≤ u.span.stop
  apart : t.Closes → u.Opens → t.span.stop ≤ u.span.start

end Token

/-- Tokens in the order of the text. -/
structure Aligned (ts : List Token) : Prop where
  proper : ∀ t ∈ ts, t.span.start ≤ t.span.stop
  pairwise : ts.Pairwise Token.Before

namespace Aligned

variable {ts us : List Token} {t : Token}

theorem sublist (h : Aligned us) (hs : ts.Sublist us) : Aligned ts :=
  ⟨fun t ht => h.proper t (hs.subset ht), h.pairwise.sublist hs⟩

theorem left (h : Aligned (ts ++ us)) : Aligned ts := h.sublist (List.sublist_append_left ts us)

theorem right (h : Aligned (ts ++ us)) : Aligned us := h.sublist (List.sublist_append_right ts us)

/-- The first of some tokens begins and ends first. -/
theorem first_le (h : Aligned (t :: ts)) :
    ∀ u ∈ t :: ts, t.span.start ≤ u.span.start ∧ t.span.stop ≤ u.span.stop := by
  intro u hu
  rcases List.mem_cons.1 hu with rfl | hu
  · exact ⟨le_refl _, le_refl _⟩
  · have hbefore := List.rel_of_pairwise_cons h.pairwise hu
    exact ⟨hbefore.start, hbefore.stop⟩

/-- The last of some tokens begins and ends last. -/
theorem le_last (h : Aligned (ts ++ [t])) :
    ∀ u ∈ ts ++ [t], u.span.start ≤ t.span.start ∧ u.span.stop ≤ t.span.stop := by
  intro u hu
  obtain ⟨-, -, hcross⟩ := List.pairwise_append.1 h.pairwise
  rcases List.mem_append.1 hu with hu | hu
  · have hbefore := hcross u hu t (List.mem_singleton_self t)
    exact ⟨hbefore.start, hbefore.stop⟩
  · rw [List.mem_singleton.1 hu]
    exact ⟨le_refl _, le_refl _⟩

end Aligned

/-! ### Spans over tokens -/

namespace Span

open Grammar (pathText)

/-- A span begins with one of these tokens. -/
def BeginsIn (ts : List Token) (s : Span) : Prop :=
  ∃ t ∈ ts, t.Opens ∧ s.start = t.span.start ∧ s.line = t.span.line ∧ s.column = t.span.column

/-- A span ends with one of these tokens. -/
def EndsIn (ts : List Token) (s : Span) : Prop := ∃ t ∈ ts, t.Closes ∧ s.stop = t.span.stop

variable {ts us : List Token} {a b : Span}

theorem BeginsIn.mono (h : a.BeginsIn ts) (hs : ts ⊆ us) : a.BeginsIn us := by
  obtain ⟨t, ht, h⟩ := h
  exact ⟨t, hs ht, h⟩

theorem EndsIn.mono (h : a.EndsIn ts) (hs : ts ⊆ us) : a.EndsIn us := by
  obtain ⟨t, ht, h⟩ := h
  exact ⟨t, hs ht, h⟩

theorem BeginsIn.le_start (h : a.BeginsIn ts) {n : Nat} (hn : ∀ t ∈ ts, n ≤ t.span.start) : n ≤ a.start := by
  obtain ⟨t, ht, -, hstart, -⟩ := h
  exact hstart ▸ hn t ht

theorem BeginsIn.start_le (h : a.BeginsIn ts) {n : Nat} (hn : ∀ t ∈ ts, t.span.start ≤ n) : a.start ≤ n := by
  obtain ⟨t, ht, -, hstart, -⟩ := h
  exact hstart ▸ hn t ht

theorem EndsIn.le_stop (h : a.EndsIn ts) {n : Nat} (hn : ∀ t ∈ ts, n ≤ t.span.stop) : n ≤ a.stop := by
  obtain ⟨t, ht, -, hstop⟩ := h
  exact hstop ▸ hn t ht

theorem EndsIn.stop_le (h : a.EndsIn ts) {n : Nat} (hn : ∀ t ∈ ts, t.span.stop ≤ n) : a.stop ≤ n := by
  obtain ⟨t, ht, -, hstop⟩ := h
  exact hstop ▸ hn t ht

/-- What ends with a token stands before what begins with one behind it. -/
theorem EndsIn.before (ha : a.EndsIn ts) (hb : b.BeginsIn us) (h : Aligned (ts ++ us)) : a.stop ≤ b.start := by
  obtain ⟨t, ht, hclose, hstop⟩ := ha
  obtain ⟨u, hu, hopen, hstart, -⟩ := hb
  obtain ⟨-, -, hcross⟩ := List.pairwise_append.1 h.pairwise
  have := (hcross t ht u hu).apart hclose hopen
  omega

/-- A span that begins and ends no later than another is prolonged by it. -/
theorem merge_of_le (hstart : a.start ≤ b.start) (hstop : a.stop ≤ b.stop) :
    a.merge b = ⟨a.start, b.stop, a.line, a.column⟩ := by
  rw [merge, if_neg (not_lt.2 hstart), max_eq_right hstop]

theorem merge_self (a : Span) : a.merge a = a := merge_of_le (le_refl _) (le_refl _)

/-- A span goes from the first to the last of some tokens. -/
structure Joins (own : List Token) (s : Span) : Prop where
  begins : ∃ t ∈ own.head?, s.start = t.span.start ∧ s.line = t.span.line ∧ s.column = t.span.column
  ends : ∃ t ∈ own.getLast?, s.stop = t.span.stop

/-- A span is that of a path among these tokens.  Tokens of the kinds `next` follow the path. -/
def Covers (ts : List Token) (path : List String) (next : List TokenKind) (s : Span) : Prop :=
  ∃ own us, own ++ us <:+: ts ∧ own.map Token.kind = pathText path ∧ us.map Token.kind = next ∧ s.Joins own

theorem Covers.mono {path : List String} {next : List TokenKind} (h : a.Covers ts path next) (hs : ts <:+: us) :
    a.Covers us path next := by
  obtain ⟨own, vs, hown, h⟩ := h
  exact ⟨own, vs, hown.trans hs, h⟩

/-- What follows the path may be left out. -/
theorem Covers.own {path : List String} {next : List TokenKind} (h : a.Covers ts path next) :
    a.Covers ts path [] := by
  obtain ⟨own, vs, hown, hpath, -, hjoins⟩ := h
  have hfront : own ++ [] <:+: own ++ vs := by
    rw [List.append_nil]
    exact List.infix_append_left
  exact ⟨own, [], hfront.trans hown, hpath, rfl, hjoins⟩

end Span

/-! ### Trees in a row -/

namespace Node

/-- One node stands behind another. -/
def Apart (a b : Node) : Prop := a.span.stop ≤ b.span.start

/-- The variables directly below a node have the spans of their paths, but for the receiver of a call, whose span
may go on to the name of the method. -/
def NamesCovered (ts : List Token) (n : Node) : Prop :=
  ∀ a path, lookup a path ∈ n.children → a.Covers ts path [] ∨
    ∃ b m args, n = call b (lookup a path) m args ∧ a.Covers ts (path ++ [m]) [.char '(']

/-- A node spans what stands between two of these tokens, and the nodes directly below it stand in its span, one
behind the other. -/
structure Spans (ts : List Token) (n : Node) : Prop where
  begins : n.span.BeginsIn ts
  ends : n.span.EndsIn ts
  le : n.span.start ≤ n.span.stop
  within : ∀ c ∈ n.children, n.span.start ≤ c.span.start ∧ c.span.stop ≤ n.span.stop
  apart : n.children.Pairwise Apart
  names : n.NamesCovered ts

variable {ts us : List Token} {n : Node}

theorem NamesCovered.mono (h : n.NamesCovered ts) (hs : ts <:+: us) : n.NamesCovered us := by
  intro a path hc
  rcases h a path hc with hown | ⟨b, m, args, hn, hcallee⟩
  · exact .inl (hown.mono hs)
  · exact .inr ⟨b, m, args, hn, hcallee.mono hs⟩

theorem Spans.mono (h : n.Spans ts) (hs : ts <:+: us) : n.Spans us :=
  { h with begins := h.begins.mono hs.subset, ends := h.ends.mono hs.subset, names := h.names.mono hs }

end Node

open Node (Apart Spans)

/-- Trees over these tokens, one behind the other. -/
structure Row (ts : List Token) (ns : List Node) : Prop where
  spans : ∀ n ∈ ns, n.All (Spans ts)
  apart : ns.Pairwise Apart
  names : ∀ a path, .lookup a path ∈ ns → a.Covers ts path []

namespace Row

variable {ts us : List Token} {ns ms : List Node} {n c d : Node} {a b : Span}

theorem nil (ts : List Token) : Row ts [] := ⟨List.forall_mem_nil _, .nil, fun _ _ h => absurd h List.not_mem_nil⟩

theorem self (h : Row ts ns) (hn : n ∈ ns) : n.Spans ts := (h.spans n hn).self

theorem append (h : Row ts ns) (h' : Row us ms) (ha : Aligned (ts ++ us)) : Row (ts ++ us) (ns ++ ms) where
  spans := by
    refine List.forall_mem_append.2 ⟨fun n hn => ?_, fun n hn => ?_⟩
    · exact (h.spans n hn).mono fun _ hm => hm.mono List.infix_append_left
    · exact (h'.spans n hn).mono fun _ hm => hm.mono List.infix_append_right
  apart := by
    refine List.pairwise_append.2 ⟨h.apart, h'.apart, fun n hn m hm => ?_⟩
    exact (h.self hn).ends.before (h'.self hm).begins ha
  names := by
    intro a path hm
    rcases List.mem_append.1 hm with hm | hm
    · exact (h.names a path hm).mono List.infix_append_left
    · exact (h'.names a path hm).mono List.infix_append_right

/-- The first tree of a row begins first. -/
theorem start_le (h : Row ts (c :: ns)) : ∀ m ∈ c :: ns, c.span.start ≤ m.span.start := by
  intro m hm
  rcases List.mem_cons.1 hm with rfl | hm
  · exact le_refl _
  · exact (h.self List.mem_cons_self).le.trans (List.rel_of_pairwise_cons h.apart hm)

/-- A node over a row of trees.  Its span goes from `a` to `b`. -/
theorem parent (h : Row ts n.children) (hspan : n.span = a.merge b) (ha : a.BeginsIn ts) (hb : b.EndsIn ts)
    (hle : b.start ≤ b.stop) (hstart : a.start ≤ b.start) (hstop : a.stop ≤ b.stop)
    (hin : ∀ c ∈ n.children, a.start ≤ c.span.start ∧ c.span.stop ≤ b.stop)
    (hname : ∀ s path, n = .lookup s path → s.Covers ts path []) : Row ts [n] := by
  rw [Span.merge_of_le hstart hstop] at hspan
  refine ⟨List.forall_mem_singleton.2 (.of_children ?_ h.spans), List.pairwise_singleton _ _,
    fun s path hm => hname s path (List.mem_singleton.1 hm).symm⟩
  exact
    { begins := by rwa [hspan]
      ends := by rwa [hspan]
      le := by rw [hspan]; exact hstart.trans hle
      within := by rwa [hspan]
      apart := h.apart
      names := fun s path hm => .inl (h.names s path hm) }

/-- A node with nodes below it is no variable. -/
theorem ne_lookup (hc : n.children = c :: ns) (s : Span) (path : List String) : n ≠ .lookup s path := by
  rintro rfl
  cases hc

/-- A node that spans two trees. -/
theorem joined (h : Row ts [c, d]) (hc : n.children = [c, d]) (hspan : n.span = c.span.merge d.span) :
    Row ts [n] := by
  have hapart : c.span.stop ≤ d.span.start := List.rel_of_pairwise_cons h.apart (List.mem_singleton_self d)
  have hleft : c.Spans ts := h.self (by simp)
  have hright : d.Spans ts := h.self (by simp)
  have hle := hleft.le
  have hle' := hright.le
  refine parent (hc ▸ h) hspan hleft.begins hright.ends hle' (by omega) (by omega) ?_
    fun _ _ hn => absurd hn (ne_lookup hc _ _)
  rw [hc]
  exact List.forall_mem_cons.2 ⟨⟨le_refl _, by omega⟩, List.forall_mem_singleton.2 ⟨by omega, le_refl _⟩⟩

/-- The last name of the receiver of a call is the name of the method.  The receiver keeps the span that it had
with this name. -/
theorem callee {args : List Node} {path : List String} {m : String}
    (h : Row ts [.call b (.lookup a (path ++ [m])) m args]) (ha : a.Covers ts (path ++ [m]) [.char '(']) :
    Row ts [.call b (.lookup a path) m args] := by
  have hcall := h.spans _ (List.mem_singleton_self _)
  obtain ⟨hobject, hargs⟩ := List.forall_mem_cons.1 fun c hc => hcall.child (c := c) hc
  obtain ⟨hin, hargsIn⟩ := List.forall_mem_cons.1 hcall.self.within
  obtain ⟨hbefore, hargsApart⟩ := List.pairwise_cons.1 hcall.self.apart
  have hleaf : (Node.lookup a path).Spans ts :=
    { begins := hobject.self.begins
      ends := hobject.self.ends
      le := hobject.self.le
      within := List.forall_mem_nil _
      apart := .nil
      names := fun _ _ hm => absurd hm List.not_mem_nil }
  have hnames : (Node.call b (.lookup a path) m args).NamesCovered ts := by
    intro s p hm
    rcases List.mem_cons.1 hm with hm | hm
    · cases hm
      exact .inr ⟨b, m, args, rfl, ha⟩
    · rcases hcall.self.names s p (List.mem_cons_of_mem _ hm) with hown | ⟨_, _, _, hn, -⟩
      · exact .inl hown
      · cases hn
        exact .inl ha.own
  refine ⟨List.forall_mem_singleton.2 (.of_children ?_ ?_), List.pairwise_singleton _ _,
    fun _ _ hm => by cases List.mem_singleton.1 hm⟩
  · exact
      { begins := hcall.self.begins
        ends := hcall.self.ends
        le := hcall.self.le
        within := List.forall_mem_cons.2 ⟨hin, hargsIn⟩
        apart := List.pairwise_cons.2 ⟨hbefore, hargsApart⟩
        names := hnames }
  · exact List.forall_mem_cons.2 ⟨.of_children hleaf (List.forall_mem_nil _), hargs⟩

end Row

/-! ### Readings -/

namespace Reading

/-- `s'` stands behind the tokens `ts` of `s`. -/
structure Behind (s : Reading) (ts : List Token) (s' : Reading) : Prop where
  rest : s.rest = ts ++ s'.rest
  last : s'.last = ts.foldl (fun _ t => t.span) s.last
  final : s'.final = s.final

/-- The trees that have been read between two places of the text. -/
def Lays (s : Reading) (ns : List Node) (s' : Reading) : Prop := ∃ ts, s.Behind ts s' ∧ Row ts ns

/-- The trees that have been read between two places, the second of which stands behind a token that a node may
end with. -/
def Closes (s : Reading) (ns : List Node) (s' : Reading) : Prop :=
  ∃ ts t, s.Behind (ts ++ [t]) s' ∧ t.Closes ∧ Row (ts ++ [t]) ns

variable {s s' s'' : Reading} {ts us : List Token} {t : Token} {ns ms : List Node} {n c d : Node}

namespace Behind

theorem refl (s : Reading) : s.Behind [] s := ⟨rfl, rfl, rfl⟩

theorem trans (h : s.Behind ts s') (h' : s'.Behind us s'') : s.Behind (ts ++ us) s'' where
  rest := by rw [h.rest, h'.rest, List.append_assoc]
  last := by rw [h'.last, h.last, List.foldl_append]
  final := h'.final.trans h.final

theorem advance {k : TokenKind} (h : s.next.kind = k) (hk : k ≠ .eof) : s.Behind [s.next] s.advance := by
  cases hrest : s.rest with
  | nil =>
    have hnext : s.next = ⟨.eof, s.final⟩ := by rw [next, ahead, hrest]; rfl
    rw [hnext] at h
    exact absurd h.symm hk
  | cons t rest =>
    have hnext : s.next = t := by rw [next, ahead, hrest]; rfl
    have hadvance : s.advance = { s with last := t.span, rest := rest } := by rw [Reading.advance, hrest]
    rw [hnext, hadvance]
    exact ⟨hrest, rfl, rfl⟩

theorem next_eq (h : s.Behind (t :: ts) s') : s.next = t := by
  rw [next, ahead, h.rest]
  rfl

theorem last_eq (h : s.Behind (ts ++ [t]) s') : s'.last = t.span := by
  rw [h.last, List.foldl_append]
  rfl

theorem aligned (h : s.Behind ts s') (hs : Aligned s.rest) : Aligned ts := by
  rw [h.rest] at hs
  exact hs.left

theorem aligned_rest (h : s.Behind ts s') (hs : Aligned s.rest) : Aligned s'.rest := by
  rw [h.rest] at hs
  exact hs.right

/-- The first of the tokens that have been taken is the next token of the place before. -/
theorem first_le (h : s.Behind ts s') (hs : Aligned s.rest) (hne : ts ≠ []) :
    s.next ∈ ts ∧ ∀ t ∈ ts, s.next.span.start ≤ t.span.start ∧ s.next.span.stop ≤ t.span.stop := by
  obtain ⟨t, us, rfl⟩ := List.exists_cons_of_ne_nil hne
  rw [h.next_eq]
  exact ⟨List.mem_cons_self, (h.aligned hs).first_le⟩

/-- From the next token to the last. -/
theorem merge_eq (h : s.Behind (ts ++ [t]) s') (hs : Aligned s.rest) :
    s.next.span.merge s'.last = ⟨s.next.span.start, t.span.stop, s.next.span.line, s.next.span.column⟩ := by
  obtain ⟨-, hfirst⟩ := h.first_le hs (by simp)
  obtain ⟨hstart, hstop⟩ := hfirst t (by simp)
  rw [h.last_eq, Span.merge_of_le hstart hstop]

theorem joins (h : s.Behind (ts ++ [t]) s') (hs : Aligned s.rest) :
    (s.next.span.merge s'.last).Joins (ts ++ [t]) := by
  rw [h.merge_eq hs]
  have hhead : (ts ++ [t]).head? = some s.next := by
    obtain ⟨u, us, hcons⟩ := List.exists_cons_of_ne_nil (l := ts ++ [t]) (by simp)
    rw [hcons] at h ⊢
    rw [h.next_eq, List.head?_cons]
  exact ⟨⟨s.next, hhead, rfl, rfl, rfl⟩, ⟨t, List.getLast?_concat, rfl⟩⟩

/-- A node over what stands between two places. -/
theorem whole (h : s.Behind (ts ++ [t]) s') (hrow : Row (ts ++ [t]) n.children) (hs : Aligned s.rest)
    (hclose : t.Closes) (hopen : s.next.Opens) (hspan : n.span = s.next.span.merge s'.last)
    (hname : ∀ a path, n = .lookup a path → a.Covers (ts ++ [t]) path []) : Row (ts ++ [t]) [n] := by
  have ha := h.aligned hs
  have hlast : t ∈ ts ++ [t] := by simp
  obtain ⟨hmem, hfirst⟩ := h.first_le hs (by simp)
  rw [h.last_eq] at hspan
  refine hrow.parent hspan ⟨_, hmem, hopen, rfl, rfl, rfl⟩ ⟨t, hlast, hclose, rfl⟩ (ha.proper t hlast)
    (hfirst t hlast).1 (hfirst t hlast).2 (fun c hc => ?_) hname
  exact ⟨(hrow.self hc).begins.le_start fun u hu => (hfirst u hu).1,
    (hrow.self hc).ends.stop_le fun u hu => (ha.le_last u hu).2⟩

end Behind

theorem opens_of_next {k : TokenKind} (h : s.next.kind = k) (hk : k ∉ [.dedent, .eof]) : s.next.Opens := by
  simp only [List.mem_cons, List.not_mem_nil, or_false, not_or] at hk
  rwa [Token.Opens, h]

theorem Lays.refl (s : Reading) : s.Lays [] s := ⟨[], .refl s, .nil _⟩

theorem Lays.token {k : TokenKind} (h : s.next.kind = k) (hk : k ≠ .eof) : s.Lays [] s.advance :=
  ⟨_, .advance h hk, .nil _⟩

theorem Lays.aligned (h : s.Lays ns s') (hs : Aligned s.rest) : Aligned s'.rest := by
  obtain ⟨ts, hb, -⟩ := h
  exact hb.aligned_rest hs

theorem Lays.trans (h : s.Lays ns s') (h' : s'.Lays ms s'') (hs : Aligned s.rest) : s.Lays (ns ++ ms) s'' := by
  obtain ⟨ts, hb, hrow⟩ := h
  obtain ⟨us, hb', hrow'⟩ := h'
  have hb := hb.trans hb'
  exact ⟨_, hb, hrow.append hrow' (hb.aligned hs)⟩

/-- One token more at the end. -/
theorem Lays.concat {k : TokenKind} (h : s.Lays ns s') (hs : Aligned s.rest) (hnext : s'.next.kind = k)
    (hk : k ≠ .eof) : s.Lays ns s'.advance := by
  have := h.trans (.token hnext hk) hs
  rwa [List.append_nil] at this

/-- What is closed by its last part is closed. -/
theorem Lays.closes (h : s.Lays ns s') (h' : s'.Closes ms s'') (hs : Aligned s.rest) : s.Closes (ns ++ ms) s'' := by
  obtain ⟨ts, hb, hrow⟩ := h
  obtain ⟨us, t, hb', ht, hrow'⟩ := h'
  have hb := hb.trans hb'
  have hrow := hrow.append hrow' (hb.aligned hs)
  rw [← List.append_assoc] at hb hrow
  exact ⟨_, t, hb, ht, hrow⟩

namespace Closes

theorem lays (h : s.Closes ns s') : s.Lays ns s' := by
  obtain ⟨ts, t, hb, -, hrow⟩ := h
  exact ⟨_, hb, hrow⟩

theorem aligned (h : s.Closes ns s') (hs : Aligned s.rest) : Aligned s'.rest := h.lays.aligned hs

theorem trans (h : s.Closes ns s') (h' : s'.Closes ms s'') (hs : Aligned s.rest) : s.Closes (ns ++ ms) s'' :=
  h.lays.closes h' hs

theorem token {k : TokenKind} (h : s.next.kind = k) (hk : k ≠ .eof) (hclose : k ≠ .indent) :
    s.Closes [] s.advance :=
  ⟨[], s.next, .advance h hk, by rwa [Token.Closes, h], .nil _⟩

/-- One token more at the end. -/
theorem concat {k : TokenKind} (h : s.Closes ns s') (hs : Aligned s.rest) (hnext : s'.next.kind = k) (hk : k ≠ .eof)
    (hclose : k ≠ .indent) : s.Closes ns s'.advance := by
  have := h.trans (token hnext hk hclose) hs
  rwa [List.append_nil] at this

/-- A tree is put in the place of the trees below it. -/
theorem replace (h : s.Closes ns s') (hrow : ∀ ts t, s.Behind (ts ++ [t]) s' → t.Closes → Row (ts ++ [t]) ns →
    Row (ts ++ [t]) ms) : s.Closes ms s' := by
  obtain ⟨ts, t, hb, ht, hr⟩ := h
  exact ⟨ts, t, hb, ht, hrow ts t hb ht hr⟩

/-- A node that spans two trees. -/
theorem joined (h : s.Closes [c, d] s') (hc : n.children = [c, d]) (hspan : n.span = c.span.merge d.span) :
    s.Closes [n] s' :=
  h.replace fun _ _ _ _ hrow => hrow.joined hc hspan

/-- A node from the next token to the last. -/
theorem whole (h : s.Closes n.children s') (hs : Aligned s.rest) (hopen : s.next.Opens)
    (hspan : n.span = s.next.span.merge s'.last) (hname : ∀ a path, n ≠ .lookup a path) : s.Closes [n] s' :=
  h.replace fun _ _ hb ht hrow => hb.whole hrow hs ht hopen hspan fun a path hn => absurd hn (hname a path)

/-- A variable from the first name of its path to the last. -/
theorem ofPath (hb : s.Behind (ts ++ [t]) s') (hs : Aligned s.rest) (hopen : s.next.Opens) (hclose : t.Closes)
    {path : List String} (hpath : (ts ++ [t]).map Token.kind = Grammar.pathText path) :
    s.Closes [.lookup (s.next.span.merge s'.last) path] s' := by
  refine ⟨ts, t, hb, hclose, hb.whole (.nil _) hs hclose hopen rfl ?_⟩
  rintro a path ⟨⟩
  exact ⟨ts ++ [t], [], by simp, hpath, rfl, hb.joins hs⟩

/-- A node from the next token to the end of the tree below it. -/
theorem upTo (h : s.Closes [c] s') (hs : Aligned s.rest) (hopen : s.next.Opens) (hc : n.children = [c])
    (hspan : n.span = s.next.span.merge c.span) : s.Closes [n] s' := by
  refine h.replace fun ts t hb ht hrow => ?_
  have hspans := hrow.self (List.mem_singleton_self c)
  obtain ⟨hmem, hfirst⟩ := hb.first_le hs (by simp)
  have hstart : s.next.span.start ≤ c.span.start := hspans.begins.le_start fun u hu => (hfirst u hu).1
  have hstop : s.next.span.stop ≤ c.span.stop := hspans.ends.le_stop fun u hu => (hfirst u hu).2
  refine Row.parent (hc ▸ hrow) hspan ⟨_, hmem, hopen, rfl, rfl, rfl⟩ hspans.ends hspans.le hstart hstop ?_
    fun _ _ hn => absurd hn (Row.ne_lookup hc _ _)
  rw [hc]
  exact List.forall_mem_singleton.2 ⟨hstart, le_refl _⟩

/-- A node from the beginning of the first tree below it to the last token. -/
theorem onward (h : s.Closes (c :: ns) s') (hs : Aligned s.rest) (hc : n.children = c :: ns)
    (hspan : n.span = c.span.merge s'.last) : s.Closes [n] s' := by
  refine h.replace fun ts t hb ht hrow => ?_
  have ha := hb.aligned hs
  have hlast : t ∈ ts ++ [t] := by simp
  have hstop {m : Node} (hm : m ∈ c :: ns) : m.span.stop ≤ t.span.stop :=
    (hrow.self hm).ends.stop_le fun u hu => (ha.le_last u hu).2
  have hbegins := (hrow.self List.mem_cons_self).begins
  have hstart : c.span.start ≤ t.span.start := hbegins.start_le fun u hu => (ha.le_last u hu).1
  rw [hb.last_eq] at hspan
  refine Row.parent (hc ▸ hrow) hspan hbegins ⟨t, hlast, ht, rfl⟩ (ha.proper t hlast) hstart
    (hstop List.mem_cons_self) ?_ fun _ _ hn => absurd hn (Row.ne_lookup hc _ _)
  rw [hc]
  exact fun m hm => ⟨hrow.start_le m hm, hstop hm⟩

/-- A node of the next token alone. -/
theorem leaf {k : TokenKind} (h : s.next.kind = k) (hs : Aligned s.rest) (hk : k ∉ [.eof, .indent, .dedent])
    (hc : n.children = []) (hspan : n.span = s.next.span) (hname : ∀ a path, n ≠ .lookup a path) :
    s.Closes [n] s.advance := by
  simp only [List.mem_cons, List.not_mem_nil, or_false, not_or] at hk
  obtain ⟨heof, hindent, hdedent⟩ := hk
  have hone : s.Behind ([] ++ [s.next]) s.advance := .advance h heof
  have hspan' : n.span = s.next.span.merge s.advance.last := by rw [hone.last_eq, Span.merge_self, hspan]
  refine whole ?_ hs ?_ hspan' hname
  · rw [hc]
    exact token h heof hindent
  · rw [Token.Opens, h]
    exact ⟨hdedent, heof⟩

end Closes

end Reading

namespace Parser

open Grammar

variable {α : Type}

/-! ### Readers -/

/-- Between where `p` begins and where it ends stand the trees that `f` finds in what it gives. -/
def Closing (p : Parser α) (f : α → List Node) : Prop :=
  ∀ s a s', p s = .ok (a, s') → Aligned s.rest → s.Closes (f a) s'

theorem commaList_closing {item : Parser α} {f : α → List Node} (h : Closing item f) (m : Nat) :
    Closing (commaList item m) (·.flatMap f) := by
  induction m with
  | zero =>
    intro s as s' hs ha
    obtain ⟨a, s₁, hitem, hp⟩ := bind_eq_ok.1 hs
    obtain ⟨rfl, rfl⟩ := pure_eq_ok.1 hp
    show s.Closes (List.flatMap f [a]) _
    rw [List.flatMap_singleton]
    exact h s a _ hitem ha
  | succ m ih =>
    intro s as s' hs ha
    obtain ⟨a, s₁, hitem, hs⟩ := bind_eq_ok.1 hs
    have hfirst := h s a _ hitem ha
    by_cases hc : s₁.next.kind = .char ','
    · rw [bind_of_ok (accept_of_next hc)] at hs
      obtain ⟨bs, s₂, hb, hp⟩ := bind_eq_ok.1 hs
      obtain ⟨rfl, rfl⟩ := pure_eq_ok.1 hp
      have hcomma := hfirst.concat ha hc (by simp) (by simp)
      exact hcomma.trans (ih _ _ _ hb (hcomma.aligned ha)) ha
    · rw [bind_of_ok (accept_of_ne hc)] at hs
      obtain ⟨rfl, rfl⟩ := pure_eq_ok.1 hs
      show s.Closes (List.flatMap f [a]) _
      rw [List.flatMap_singleton]
      exact hfirst

theorem parenthesized_closing {item : Parser α} {f : α → List Node} (h : Closing item f) (m : Nat) :
    Closing (parenthesized item m) (·.flatMap f) := by
  intro s as s' hs ha
  obtain ⟨_, s₁, he, hs⟩ := bind_eq_ok.1 hs
  obtain ⟨ho, rfl⟩ := expect_eq_ok.1 he
  have hopen : s.Closes [] s.advance := .token ho (by simp) (by simp)
  by_cases hc : s.advance.next.kind = .char ')'
  · rw [bind_of_ok (accept_of_next hc)] at hs
    obtain ⟨rfl, rfl⟩ := pure_eq_ok.1 hs
    exact hopen.concat ha hc (by simp) (by simp)
  · rw [bind_of_ok (accept_of_ne hc)] at hs
    obtain ⟨bs, s₂, hb, hs⟩ := bind_eq_ok.1 hs
    obtain ⟨_, s₃, he, hp⟩ := bind_eq_ok.1 hs
    obtain ⟨hcl, rfl⟩ := expect_eq_ok.1 he
    obtain ⟨rfl, rfl⟩ := pure_eq_ok.1 hp
    have hitems := hopen.trans (commaList_closing h m _ _ _ hb (hopen.aligned ha)) ha
    exact hitems.concat ha hcl (by simp) (by simp)

theorem expectName_closing : Closing expectName fun _ => [] := by
  intro s x s' hs _
  obtain ⟨hx, rfl⟩ := expectName_eq_ok.1 hs
  exact .token hx (by simp) (by simp)

/-- Items up to the end of a block. -/
theorem manyUntil_lays {item : Parser α} {f : α → List Node} (h : Closing item f) (stop : TokenKind → Bool)
    (m : Nat) {s s' : Reading} {as : List α} (hs : manyUntil stop item m s = .ok (as, s')) (ha : Aligned s.rest) :
    s.Lays (as.flatMap f) s' := by
  induction m generalizing s as with
  | zero =>
    obtain ⟨rfl, rfl⟩ := pure_eq_ok.1 hs
    exact .refl _
  | succ m ih =>
    unfold manyUntil at hs
    rw [bind_of_ok (peek_run s)] at hs
    by_cases hk : stop s.next.kind = true
    · rw [if_pos hk] at hs
      obtain ⟨rfl, rfl⟩ := pure_eq_ok.1 hs
      exact .refl _
    · rw [if_neg hk] at hs
      obtain ⟨a, s₁, hitem, h₁⟩ := bind_eq_ok.1 hs
      obtain ⟨bs, s₂, hb, h₂⟩ := bind_eq_ok.1 h₁
      obtain ⟨rfl, rfl⟩ := pure_eq_ok.1 h₂
      have hfirst := (h s a _ hitem ha).lays
      exact hfirst.trans (ih hb (hfirst.aligned ha)) ha

/-! ### Expressions -/

/-- What `p` gives is one tree over the tokens that it takes. -/
abbrev ClosingTree (p : Parser Node) : Prop := Closing p fun n => [n]

theorem operands_closing {join? : TokenKind → Option (Node → Node → Node)} {operand : Parser Node}
    (hjoin : ∀ k f, join? k = some f → k ∉ [.eof, .indent] ∧ ∀ l r, (f l r).children = [l, r] ∧
      (f l r).span = l.span.merge r.span)
    (h : ClosingTree operand) (m : Nat) {l n : Node} {s₀ s s' : Reading}
    (hs : operands join? operand m l s = .ok (n, s')) (ha : Aligned s₀.rest) (hl : s₀.Closes [l] s) :
    s₀.Closes [n] s' := by
  induction m generalizing l s with
  | zero =>
    obtain ⟨rfl, rfl⟩ := pure_eq_ok.1 hs
    exact hl
  | succ m ih =>
    unfold operands at hs
    rw [bind_of_ok (peek_run s)] at hs
    cases hj : join? s.next.kind with
    | none =>
      rw [hj] at hs
      obtain ⟨rfl, rfl⟩ := pure_eq_ok.1 hs
      exact hl
    | some f =>
      rw [hj] at hs
      dsimp only at hs
      obtain ⟨hk, hnode⟩ := hjoin _ f hj
      simp only [List.mem_cons, List.not_mem_nil, or_false, not_or] at hk
      rw [bind_of_ok (skip_run s)] at hs
      obtain ⟨r, s₁, ho, hs⟩ := bind_eq_ok.1 hs
      have hop := hl.concat ha rfl hk.1 hk.2
      have hboth := hop.trans (h _ _ _ ho (hop.aligned ha)) ha
      exact ih hs (hboth.joined (hnode l r).1 (hnode l r).2)

theorem join_closing {r : Rank} (k : TokenKind) (f : Node → Node → Node) (hf : joinOf r k = some f) :
    k ∉ [.eof, .indent] ∧ ∀ a b, (f a b).children = [a, b] ∧ (f a b).span = a.span.merge b.span := by
  obtain ⟨op, -, rfl, rfl⟩ := joinOf_eq_some hf
  rcases op with ⟨⟨⟩⟩ | ⟨⟨⟩⟩ <;> exact ⟨by simp [BinOp.token], fun a b => ⟨rfl, rfl⟩⟩

theorem leftAssoc_closing {r : Rank} {operand : Parser Node} (h : ClosingTree operand) (m : Nat) :
    ClosingTree (leftAssoc (joinOf r) operand m) := by
  intro s n s' hs ha
  obtain ⟨l, s₁, hl, hs⟩ := bind_eq_ok.1 hs
  exact operands_closing join_closing h m hs ha (h _ _ _ hl ha)

theorem moreNames_closing (m : Nat) {xs : List String} {s₀ s s' : Reading} (hs : moreNames m s = .ok (xs, s'))
    (ha : Aligned s₀.rest) (h : s₀.Closes [] s) : s₀.Closes [] s' := by
  induction m generalizing s xs with
  | zero =>
    obtain ⟨rfl, rfl⟩ := pure_eq_ok.1 hs
    exact h
  | succ m ih =>
    unfold moreNames at hs
    rw [bind_of_ok (nextIs_run _ s)] at hs
    by_cases hd : s.next.kind = .char '.'
    · rw [decide_eq_true hd, if_pos rfl, bind_of_ok (peekSecond_run s)] at hs
      cases hk : (s.ahead 1).kind with
      | name x =>
        rw [hk] at hs
        dsimp only at hs
        rw [bind_of_ok (skip_run s), bind_of_ok (skip_run _)] at hs
        obtain ⟨ys, s₁, hy, hp⟩ := bind_eq_ok.1 hs
        obtain ⟨rfl, rfl⟩ := pure_eq_ok.1 hp
        have hx : s.advance.next.kind = .name x := by
          rw [Reading.ahead_kind] at hk
          rw [Reading.next, Reading.ahead_kind, Reading.kinds_advance, ← hk]
          simp
        have hdot := h.concat ha hd (by simp) (by simp)
        exact ih hy (hdot.concat ha hx (by simp) (by simp))
      | _ =>
        rw [hk] at hs
        obtain ⟨rfl, rfl⟩ := pure_eq_ok.1 hs
        exact h
    · rw [decide_eq_false hd, if_neg (by simp)] at hs
      obtain ⟨rfl, rfl⟩ := pure_eq_ok.1 hs
      exact h

/-- A dotted name begins with a name. -/
theorem dottedName_closing (m : Nat) {path : List String} {s s' : Reading}
    (hs : dottedName m s = .ok (path, s')) (ha : Aligned s.rest) : s.Closes [] s' ∧ s.next.Opens := by
  obtain ⟨x, s₁, he, hs⟩ := bind_eq_ok.1 hs
  obtain ⟨hx, rfl⟩ := expectName_eq_ok.1 he
  obtain ⟨xs, s₂, hm, hp⟩ := bind_eq_ok.1 hs
  obtain ⟨rfl, rfl⟩ := pure_eq_ok.1 hp
  exact ⟨moreNames_closing m hm ha (.token hx (by simp) (by simp)), Reading.opens_of_next hx (by simp)⟩

/-- The tokens of a dotted name spell its path. -/
theorem dottedName_behind {m : Nat} {path : List String} {s s' : Reading}
    (hs : dottedName m s = .ok (path, s')) (ha : Aligned s.rest) :
    ∃ ts t, s.Behind (ts ++ [t]) s' ∧ t.Closes ∧ (ts ++ [t]).map Token.kind = pathText path := by
  obtain ⟨⟨ts, t, hb, hclose, -⟩, -⟩ := dottedName_closing m hs ha
  have htook := (dottedName_sound m hs).1.text
  rw [Reading.kinds, hb.rest, List.map_append] at htook
  exact ⟨ts, t, hb, hclose, List.append_cancel_right htook⟩

section

variable {bound : Nat} {inner : Level → Parser Node} (h : ∀ l, ClosingTree (inner l))
include h

theorem arguments_closing : Closing (arguments bound inner) id := by
  intro s ns s' hs ha
  have hrow : s.Closes (ns.flatMap fun n => [n]) s' := parenthesized_closing (h .test) bound s ns s' hs ha
  rwa [List.flatMap_singleton'] at hrow

/-- The name of a call has been taken. -/
theorem callByName_closing {name : String} {s s' : Reading} {n : Node} (hk : s.next.kind = .name name)
    (hs : callByName bound inner name s.next.span s.advance = .ok (n, s')) (ha : Aligned s.rest) :
    s.Closes [n] s' := by
  have hopen := Reading.opens_of_next hk (by simp)
  have hname : s.Closes [] s.advance := .token hk (by simp) (by simp)
  have ha' := hname.aligned ha
  change (if s.advance.declares name then _ else _ : Parser Node) s.advance = _ at hs
  split at hs
  · obtain ⟨ns, s₁, hargs, hs⟩ := bind_eq_ok.1 hs
    cases hs
    exact (hname.trans (arguments_closing h _ _ _ hargs ha') ha).whole ha hopen rfl nofun
  · split at hs
    · obtain ⟨_, s₁, he, hs⟩ := bind_eq_ok.1 hs
      obtain ⟨ho, rfl⟩ := expect_eq_ok.1 he
      obtain ⟨arg, s₂, harg, hs⟩ := bind_eq_ok.1 hs
      obtain ⟨_, s₃, he, hs⟩ := bind_eq_ok.1 hs
      obtain ⟨hc, rfl⟩ := expect_eq_ok.1 he
      cases hs
      have hbracket := hname.concat ha ho (by simp) (by simp)
      have hinner := hbracket.trans (h .test _ _ _ harg (hbracket.aligned ha)) ha
      exact (hinner.concat ha hc (by simp) (by simp)).whole ha hopen rfl nofun
    · cases hs

/-- The arguments of a call stand behind its receiver, which is written with dots in front of the method. -/
theorem dottedCall_closing {path : List String} {m : String} {ns : List Node} {ts : List Token} {t : Token}
    {s s₁ s' : Reading} (hb : s.Behind (ts ++ [t]) s₁) (hclose : t.Closes) (hopen : s.next.Opens)
    (hpath : (ts ++ [t]).map Token.kind = pathText (path ++ [m])) (hbracket : s₁.next.kind = .char '(')
    (hargs : arguments bound inner s₁ = .ok (ns, s')) (ha : Aligned s.rest) :
    s.Closes [.call (s.next.span.merge s'.last) (.lookup (s.next.span.merge s₁.last) path) m ns] s' := by
  -- the span of the receiver has the name of the method in it
  have hnames : s.Closes [.lookup (s.next.span.merge s₁.last) (path ++ [m])] s₁ := .ofPath hb ha hopen hclose hpath
  have hargs := arguments_closing h _ _ _ hargs (hnames.aligned ha)
  have hcall : s.Closes
      [.call (s.next.span.merge s'.last) (.lookup (s.next.span.merge s₁.last) (path ++ [m])) m ns] s' :=
    (hnames.trans hargs ha).whole ha hopen rfl nofun
  refine hcall.replace fun us u hb' _ hrow => hrow.callee ?_
  obtain ⟨vs, v, hbehind, -⟩ := hargs
  obtain ⟨w, ws, hcons⟩ := List.exists_cons_of_ne_nil (l := vs ++ [v]) (by simp)
  rw [hcons] at hbehind
  have hsame : us ++ [u] = ts ++ [t] ++ [s₁.next] ++ ws := by
    refine List.append_cancel_right (hb'.rest.symm.trans ((hb.trans hbehind).rest.trans ?_))
    rw [hbehind.next_eq]
    simp
  rw [hsame]
  exact ⟨ts ++ [t], [s₁.next], List.infix_append_left, hpath, by rw [List.map_singleton, hbracket], hb.joins ha⟩

theorem dottedValue_closing : ClosingTree (dottedValue bound inner) := by
  intro s n s' hs ha
  unfold dottedValue at hs
  rw [bind_of_ok (peek_run s)] at hs
  obtain ⟨path, s₁, hp, hs⟩ := bind_eq_ok.1 hs
  obtain ⟨ts, t, hb, hclose, hpath⟩ := dottedName_behind hp ha
  have hopen := (dottedName_closing bound hp ha).2
  rw [bind_of_ok (nextIs_run _ s₁)] at hs
  split at hs
  · rename_i hc
    rw [Bool.and_eq_true, decide_eq_true_iff, decide_eq_true_iff] at hc
    rw [bind_of_ok (spanFrom_run _ s₁)] at hs
    obtain ⟨ns, s₂, hargs, hs⟩ := bind_eq_ok.1 hs
    cases hs
    rw [← dropLast_concat_getLastD (dottedName_sound bound hp).2] at hpath
    exact dottedCall_closing h hb hclose hopen hpath hc.2 hargs ha
  · cases hs
    exact .ofPath hb ha hopen hclose hpath

set_option linter.auxLemma false in
theorem primary_closing : ClosingTree (primary bound inner) := by
  intro s n s' hs ha
  unfold primary at hs
  rw [bind_of_ok (peek_run s)] at hs
  cases hk : s.next.kind with
  | name x =>
    rw [hk] at hs
    dsimp only at hs
    rw [bind_of_ok (peekSecond_run s)] at hs
    split at hs
    · rw [bind_of_ok (skip_run s)] at hs
      exact callByName_closing h hk hs ha
    · exact dottedValue_closing h s n s' hs ha
  | number i =>
    rw [hk] at hs
    cases hs
    exact .leaf hk ha (by simp) rfl rfl nofun
  | string t =>
    rw [hk] at hs
    cases hs
    exact .leaf hk ha (by simp) rfl rfl nofun
  | keyword k =>
    rw [hk] at hs
    cases k with
    | kTrue =>
      cases hs
      exact .leaf hk ha (by simp) rfl rfl nofun
    | kFalse =>
      cases hs
      exact .leaf hk ha (by simp) rfl rfl nofun
    | kNone =>
      cases hs
      exact .leaf hk ha (by simp) rfl rfl nofun
    | _ => cases hs
  | char c =>
    -- `split` has no equations for a match that mixes characters with numbers.
    rw [hk] at hs
    by_cases hc : c = '('
    · subst hc
      change (do skip; let e ← inner .test; expect (.char ')'); return e : Parser Node) s = _ at hs
      rw [bind_of_ok (skip_run s)] at hs
      obtain ⟨e, s₁, hinner, hs⟩ := bind_eq_ok.1 hs
      obtain ⟨_, s₂, he, hs⟩ := bind_eq_ok.1 hs
      obtain ⟨hcl, rfl⟩ := expect_eq_ok.1 he
      obtain ⟨rfl, rfl⟩ := pure_eq_ok.1 hs
      have hopen : s.Closes [] s.advance := .token hk (by simp) (by simp)
      have hboth := hopen.trans (h .test _ _ _ hinner (hopen.aligned ha)) ha
      exact hboth.concat ha hcl (by simp) (by simp)
    · delta primary.match_1 at hs
      change (dite (c = '(') _ fun _ => unexpected "expression" s.next) s = _ at hs
      rw [dif_neg hc] at hs
      cases hs
  | _ =>
    rw [hk] at hs
    cases hs

theorem methodCalls_closing (m : Nat) {o n : Node} {s₀ s s' : Reading}
    (hs : methodCalls bound inner m o s = .ok (n, s')) (ha : Aligned s₀.rest) (ho : s₀.Closes [o] s) :
    s₀.Closes [n] s' := by
  induction m generalizing o s with
  | zero =>
    obtain ⟨rfl, rfl⟩ := pure_eq_ok.1 hs
    exact ho
  | succ m ih =>
    unfold methodCalls at hs
    by_cases hd : s.next.kind = .char '.'
    · rw [bind_of_ok (accept_of_next hd)] at hs
      obtain ⟨x, s₁, he, hs⟩ := bind_eq_ok.1 hs
      obtain ⟨hx, rfl⟩ := expectName_eq_ok.1 he
      obtain ⟨ns, s₂, hargs, hs⟩ := bind_eq_ok.1 hs
      rw [bind_of_ok (spanFrom_run _ s₂)] at hs
      have hdot := ho.concat ha hd (by simp) (by simp)
      have hname := hdot.concat ha hx (by simp) (by simp)
      have hcall := hname.trans (arguments_closing h _ _ _ hargs (hname.aligned ha)) ha
      exact ih hs (hcall.onward ha rfl rfl)
    · rw [bind_of_ok (accept_of_ne hd)] at hs
      obtain ⟨rfl, rfl⟩ := pure_eq_ok.1 hs
      exact ho

theorem signed_closing : ClosingTree (signed bound inner) := by
  intro s n s' hs ha
  unfold signed at hs
  rw [bind_of_ok (peek_run s)] at hs
  by_cases hm : s.next.kind = .char '-'
  · rw [bind_of_ok (accept_of_next hm)] at hs
    obtain ⟨arg, s₁, harg, hs⟩ := bind_eq_ok.1 hs
    obtain ⟨rfl, rfl⟩ := pure_eq_ok.1 hs
    -- the zero stands where the sign does
    have hzero : s.Closes [.literal s.next.span (.int 0)] s.advance := .leaf hm ha (by simp) rfl rfl nofun
    exact (hzero.trans (h .signed _ _ _ harg (hzero.aligned ha)) ha).joined rfl rfl
  · rw [bind_of_ok (accept_of_ne hm)] at hs
    obtain ⟨o, s₁, ho, hs⟩ := bind_eq_ok.1 hs
    exact methodCalls_closing h bound hs ha (primary_closing h _ _ _ ho ha)

theorem sum_closing : ClosingTree (sum bound inner) :=
  leftAssoc_closing (r := .sum) (leftAssoc_closing (r := .product) (signed_closing h) bound) bound

theorem comparison_closing : ClosingTree (comparison bound inner) := by
  intro s n s' hs ha
  unfold comparison at hs
  obtain ⟨l, s₁, hl, hs⟩ := bind_eq_ok.1 hs
  have hleft := sum_closing h _ _ _ hl ha
  rw [bind_of_ok (peek_run s₁)] at hs
  cases hc : comparator? s₁.next.kind with
  | none =>
    rw [hc] at hs
    obtain ⟨rfl, rfl⟩ := pure_eq_ok.1 hs
    exact hleft
  | some op =>
    rw [hc] at hs
    dsimp only at hs
    have hk := (comparator?_eq_some hc).symm
    rw [bind_of_ok (skip_run s₁)] at hs
    obtain ⟨r, s₂, hr, hs⟩ := bind_eq_ok.1 hs
    obtain ⟨rfl, rfl⟩ := pure_eq_ok.1 hs
    have hop := hleft.concat ha hk (by cases op <;> simp [comparatorToken]) (by cases op <;> simp [comparatorToken])
    exact (hop.trans (sum_closing h _ _ _ hr (hop.aligned ha)) ha).joined rfl rfl

theorem negation_closing : ClosingTree (negation bound inner) := by
  intro s n s' hs ha
  unfold negation at hs
  rw [bind_of_ok (peek_run s)] at hs
  by_cases hk : s.next.kind = .keyword .kNot
  · rw [bind_of_ok (accept_of_next hk)] at hs
    obtain ⟨arg, s₁, harg, hs⟩ := bind_eq_ok.1 hs
    obtain ⟨rfl, rfl⟩ := pure_eq_ok.1 hs
    have hnot : s.Closes [] s.advance := .token hk (by simp) (by simp)
    have hopen := Reading.opens_of_next hk (by simp)
    exact (hnot.trans (h .negation _ _ _ harg (hnot.aligned ha)) ha).upTo ha hopen rfl rfl
  · rw [bind_of_ok (accept_of_ne hk)] at hs
    exact comparison_closing h _ _ _ hs ha

theorem atLevel_closing (l : Level) : ClosingTree (atLevel bound inner l) := by
  cases l with
  | test =>
    have hconjunction : ClosingTree (conjunction bound inner) :=
      leftAssoc_closing (r := .conjunction) (negation_closing h) bound
    exact leftAssoc_closing (r := .disjunction) hconjunction bound
  | negation => exact negation_closing h
  | signed => exact signed_closing h

end

/-- An expression is one tree over the tokens that it is read from. -/
theorem expression_closing (n : Nat) (l : Level) : ClosingTree (expression n l) := by
  induction n generalizing l with
  | zero =>
    intro s n s' hs
    cases hs
  | succ n ih => exact atLevel_closing ih l

end Parser

end ClassScript
