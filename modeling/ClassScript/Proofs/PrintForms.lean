import ClassScript.Proofs.IndexedStatements
import ClassScript.Proofs.StatementComplete

/-!
# The two forms of `print`

A line that prints may have parentheses around all its arguments or not, and the reader tries the parentheses
first.  Where an expression ends does not depend on the classes that have been declared
(`ExpressionText.unique`), so both forms of a line are read just if their arguments are expressions where they
stand, and give the same arguments.  An attempt that is given up leaves nothing behind.  Main statement:
`print_forms`.
-/

namespace ClassScript

namespace Grammar

/-! ### Expressions elsewhere -/

/-- A text is one of some phrase of the same kind. -/
def Phrase.SpelledBy (unit : Nat) (known : Set String) : Phrase → List TokenKind → Prop
  | .expr r _, w => ∃ n, Spells unit known (.expr r n) w
  | .args _, w => ∃ ns, Spells unit known (.args ns) w

theorem mem_commas {k : TokenKind} {w : List TokenKind} {ws : List (List TokenKind)} (hw : w ∈ ws)
    (hk : k ∈ w) : k ∈ commas ws := by
  induction ws with
  | nil => cases hw
  | cons v ws ih =>
    by_cases hne : ws = []
    · subst hne
      rw [commas_singleton, ← List.mem_singleton.1 hw]
      exact hk
    · rw [commas_cons hne, List.mem_append, List.mem_cons]
      rcases List.mem_cons.1 hw with rfl | hw
      · exact .inl hk
      · exact .inr (.inr (ih hw))

variable {unit unit' : Nat} {known known' : Set String}

/-- An expression is one also where other classes have been declared, if only all its names have been; but it may
stand for another tree there. -/
theorem Spells.elsewhere {p : Phrase} {w : List TokenKind} (h : Spells unit known p w)
    (hw : ∀ x, .name x ∈ w → x ∈ known') : p.SpelledBy unit' known' w := by
  induction h with
  | @binary r n w more first rank rest ih ih' =>
    obtain ⟨n', hn'⟩ := ih fun x hx => hw x (List.mem_append_left _ hx)
    have hmore (p) (hp : p ∈ more) : ∃ n, Spells unit' known' (.expr r.next n) p.2.1 :=
      ih' p hp fun x hx => hw x <|
        List.mem_append_right _ (List.mem_flatMap.2 ⟨p, hp, List.mem_cons_of_mem _ hx⟩)
    choose! f hf using hmore
    have hspells := Spells.binary (more.map fun p => (p.1, p.2.1, f p)) hn'
      (List.forall_mem_map.2 rank) (List.forall_mem_map.2 hf)
    rw [List.flatMap_map] at hspells
    exact ⟨_, hspells⟩
  | not arg ih =>
    obtain ⟨n', hn'⟩ := ih fun x hx => hw x (List.mem_cons_of_mem _ hx)
    exact ⟨_, .not hn'⟩
  | compare op left right ih ih' =>
    obtain ⟨l, hl⟩ := ih fun x hx => hw x (List.mem_append_left _ hx)
    obtain ⟨r, hr⟩ := ih' fun x hx => hw x (List.mem_append_right _ (List.mem_cons_of_mem _ hx))
    exact ⟨_, .compare op hl hr⟩
  | minus arg ih =>
    obtain ⟨n', hn'⟩ := ih fun x hx => hw x (List.mem_cons_of_mem _ hx)
    exact ⟨_, .minus hn'⟩
  | @call n w more first rest ih ih' =>
    obtain ⟨n', hn'⟩ := ih fun x hx => hw x (List.mem_append_left _ hx)
    have hmore (p) (hp : p ∈ more) : ∃ ns, Spells unit' known' (.args ns) p.2.1 :=
      ih' p hp fun x hx => hw x <| List.mem_append_right _ <|
        List.mem_flatMap.2 ⟨p, hp, List.mem_cons_of_mem _ (List.mem_cons_of_mem _ hx)⟩
    choose! f hf using hmore
    have hspells := Spells.call (more.map fun p => (p.1, p.2.1, f p)) hn' (List.forall_mem_map.2 hf)
    rw [List.flatMap_map] at hspells
    exact ⟨_, hspells⟩
  | literal h => exact ⟨_, .literal h⟩
  | paren inner ih =>
    obtain ⟨n', hn'⟩ := ih fun x hx => hw x (List.mem_cons_of_mem _ (List.mem_append_left _ hx))
    exact ⟨_, .paren hn'⟩
  | @str n w free arg ih =>
    -- with a class of this name it is an instance
    obtain ⟨n', hn'⟩ := ih fun x hx =>
      hw x (List.mem_cons_of_mem _ (List.mem_cons_of_mem _ (List.mem_append_left _ hx)))
    have hargs := Spells.args [(w, n')] (List.forall_mem_singleton.2 hn')
    rw [List.map_singleton, List.map_singleton, commas_singleton] at hargs
    exact ⟨_, .new (hw "str" List.mem_cons_self) hargs⟩
  | new declared args ih =>
    obtain ⟨ns', hns'⟩ := ih fun x hx => hw x (List.mem_cons_of_mem _ hx)
    exact ⟨_, .new (hw _ List.mem_cons_self) hns'⟩
  | lookup h => exact ⟨_, .lookup h⟩
  | dottedCall h args ih =>
    obtain ⟨ns', hns'⟩ := ih fun x hx => hw x (List.mem_append_right _ hx)
    exact ⟨_, .dottedCall h hns'⟩
  | args items each ih =>
    have hitems (p) (hp : p ∈ items) : ∃ n, Spells unit' known' (.expr .disjunction n) p.1 := by
      refine ih p hp fun x hx => hw x (List.mem_cons_of_mem _ (List.mem_append_left _ ?_))
      exact mem_commas (List.mem_map_of_mem hp) hx
    choose! f hf using hitems
    have hspells := Spells.args (items.map fun p => (p.1, f p)) (List.forall_mem_map.2 hf)
    rw [List.map_map, List.map_map] at hspells
    exact ⟨_, hspells⟩

/-- A text of an expression, wherever it stands. -/
def ExpressionText (w : List TokenKind) : Prop := ∃ unit known n, Spells unit known (.expr .disjunction n) w

/-- A text of an expression where these classes have been declared. -/
def ExpressionIn (unit : Nat) (known : Set String) (w : List TokenKind) : Prop :=
  ∃ n, Spells unit known (.expr .disjunction n) w

theorem ExpressionIn.text {w : List TokenKind} (h : ExpressionIn unit known w) : ExpressionText w :=
  ⟨unit, known, h⟩

namespace ExpressionText

variable {w w' rest rest' : List TokenKind}

theorem elsewhere (h : ExpressionText w) (hw : ∀ x, .name x ∈ w → x ∈ known) :
    ∃ n, Spells unit known (.expr .disjunction n) w := by
  obtain ⟨_, _, n, hn⟩ := h
  exact hn.elsewhere hw

theorem begins (h : ExpressionText w) : ∃ k v, w = k :: v ∧ Rank.disjunction.Begins k := by
  obtain ⟨_, _, n, hn⟩ := h
  exact hn.begins

theorem newline_not_mem (h : ExpressionText w) : .newline ∉ w := by
  obtain ⟨_, _, n, hn⟩ := h
  exact hn.foreign_not_mem (by decide)

/-- Where an expression ends is told by its tokens alone. -/
theorem unique (h : ExpressionText w) (h' : ExpressionText w') (heq : w ++ rest = w' ++ rest')
    (hk : Rank.disjunction.Stops (rest.headD .eof)) (hk' : Rank.disjunction.Stops (rest'.headD .eof)) :
    w = w' ∧ rest = rest' := by
  -- read where all names are those of classes
  let all : List TokenKind := w ++ rest
  let s : Reading := ⟨0, {}, all.map fun k => ⟨k, {}⟩, {}, all.map fun k => ⟨k.text, true⟩⟩
  have hs : s.kinds = w ++ rest := by
    show (all.map fun k => (⟨k, {}⟩ : Token)).map Token.kind = all
    rw [List.map_map]
    exact List.map_id _
  have hnames : ∀ x, .name x ∈ all → x ∈ s.names.declared := by
    intro x hx
    refine List.any_eq_true.2 ⟨⟨x, true⟩, List.mem_map.2 ⟨.name x, hx, rfl⟩, ?_⟩
    exact beq_self_eq_true x
  have hall' : all = w' ++ rest' := heq
  obtain ⟨n, hn⟩ : ∃ n, Spells 0 s.names.declared (.expr .disjunction n) w :=
    h.elsewhere fun x hx => hnames x (List.mem_append_left _ hx)
  obtain ⟨n', hn'⟩ : ∃ n, Spells 0 s.names.declared (.expr .disjunction n) w' :=
    h'.elsewhere fun x hx => hnames x (hall' ▸ List.mem_append_left _ hx)
  have hreads := Parser.test_reads hn (Nat.le_add_right _ w'.length)
  have hreads' := Parser.test_reads hn' (Nat.le_add_left _ w.length)
  exact (hreads.unique hreads' rfl rfl hs (hs.trans heq) hk hk').2

end ExpressionText

/-! ### Lines -/

/-- What stands behind the first expression of a list. -/
theorem commas_cons_append (w : List TokenKind) (ws : List (List TokenKind)) (rest : List TokenKind) :
    ∃ tail, commas (w :: ws) ++ rest = w ++ tail ∧
      (ws = [] ∧ tail = rest ∨ ws ≠ [] ∧ tail = .char ',' :: (commas ws ++ rest)) := by
  by_cases hne : ws = []
  · subst hne
    exact ⟨rest, by rw [commas_singleton], .inl ⟨rfl, rfl⟩⟩
  · exact ⟨_, by rw [commas_cons hne, List.append_assoc, List.cons_append], .inr ⟨hne, rfl⟩⟩

/-- No expression begins with what may end a list. -/
theorem Rank.Begins.not_mem_ends {r : Rank} {k : TokenKind} (h : r.Begins k) : k ∉ [.char ')', .newline] := by
  intro hk
  rcases List.mem_cons.1 hk with rfl | hk
  · obtain ⟨hc, -⟩ | hc := h.of_char
    · exact absurd hc (by decide)
    · exact absurd hc (by decide)
  · obtain rfl := List.mem_singleton.1 hk
    exact h.not_mem (by decide)

theorem ExpressionText.not_commas_nil {w : List TokenKind} (h : ExpressionText w) {ws : List (List TokenKind)}
    {k k' : TokenKind} (hk : k ∈ [.char ')', .newline]) {rest rest' : List TokenKind} :
    commas [] ++ k :: rest ≠ commas (w :: ws) ++ k' :: rest' := by
  intro heq
  obtain ⟨tail, htail, -⟩ := commas_cons_append w ws (k' :: rest')
  obtain ⟨l, v, rfl, hl⟩ := h.begins
  rw [htail] at heq
  obtain ⟨rfl, -⟩ := List.cons.inj heq
  exact hl.not_mem_ends hk

/-- Where the expressions of a list end is told by their tokens, and so is where the list ends. -/
theorem commas_unique {ws ws' : List (List TokenKind)} (h : ∀ w ∈ ws, ExpressionText w)
    (h' : ∀ w ∈ ws', ExpressionText w) {k k' : TokenKind} (hk : k ∈ [.char ')', .newline])
    (hk' : k' ∈ [.char ')', .newline]) {rest rest' : List TokenKind}
    (heq : commas ws ++ k :: rest = commas ws' ++ k' :: rest') : ws = ws' ∧ k :: rest = k' :: rest' := by
  have hcomma {l : TokenKind} (hl : l ∈ [.char ')', .newline]) : l ≠ .char ',' := by
    rintro rfl
    exact absurd hl (by decide)
  have hstops {l : TokenKind} (hl : l ∈ [.char ')', .newline]) : Rank.disjunction.Stops l :=
    stops_of_mem _ (by revert hl; simp only [List.mem_cons]; tauto)
  induction ws generalizing ws' with
  | nil =>
    cases ws' with
    | nil => exact ⟨rfl, heq⟩
    | cons w' ws' => exact absurd heq ((h' w' List.mem_cons_self).not_commas_nil hk)
  | cons w ws ih =>
    obtain ⟨hw, hws⟩ := List.forall_mem_cons.1 h
    cases ws' with
    | nil => exact absurd heq.symm (hw.not_commas_nil hk')
    | cons w' ws' =>
      obtain ⟨hw', hws'⟩ := List.forall_mem_cons.1 h'
      obtain ⟨tail, htail, hcase⟩ := commas_cons_append w ws (k :: rest)
      obtain ⟨tail', htail', hcase'⟩ := commas_cons_append w' ws' (k' :: rest')
      rw [htail, htail'] at heq
      have hcomma' : Rank.disjunction.Stops (.char ',') := stops_of_mem _ (by simp)
      have hstop : Rank.disjunction.Stops (tail.headD .eof) := by
        rcases hcase with ⟨-, rfl⟩ | ⟨-, rfl⟩
        · exact hstops hk
        · exact hcomma'
      have hstop' : Rank.disjunction.Stops (tail'.headD .eof) := by
        rcases hcase' with ⟨-, rfl⟩ | ⟨-, rfl⟩
        · exact hstops hk'
        · exact hcomma'
      obtain ⟨rfl, rfl⟩ := hw.unique hw' heq hstop hstop'
      rcases hcase with ⟨rfl, rfl⟩ | ⟨-, rfl⟩
      · rcases hcase' with ⟨rfl, hend⟩ | ⟨-, hend⟩
        · exact ⟨rfl, hend⟩
        · exact absurd (List.cons.inj hend).1 (hcomma hk)
      · rcases hcase' with ⟨-, hend⟩ | ⟨-, hend⟩
        · exact absurd (List.cons.inj hend).1.symm (hcomma hk')
        · obtain ⟨rfl, hrest⟩ := ih hws hws' (List.cons.inj hend).2
          exact ⟨rfl, hrest⟩

theorem commas_inj {ws ws' : List (List TokenKind)} (h : ∀ w ∈ ws, ExpressionText w)
    (h' : ∀ w ∈ ws', ExpressionText w) (heq : commas ws = commas ws') : ws = ws' := by
  have hend : commas ws ++ .newline :: [] = commas ws' ++ .newline :: [] := by rw [heq]
  exact (commas_unique h h' (by simp) (by simp) hend).1

theorem newline_not_mem_commas {ws : List (List TokenKind)} (h : ∀ w ∈ ws, ExpressionText w) :
    .newline ∉ commas ws :=
  not_mem_commas (by decide) fun w hw => (h w hw).newline_not_mem

theorem newline_not_mem_parens {ws : List (List TokenKind)} (h : ∀ w ∈ ws, ExpressionText w) :
    .newline ∉ parens (commas ws) :=
  not_mem_parens (by decide) (by decide) (newline_not_mem_commas h)

/-- Parentheses around a whole list are those of one expression if they are read as such. -/
theorem parens_commas_unique {ws ws' : List (List TokenKind)} (h : ∀ w ∈ ws, ExpressionText w)
    (h' : ∀ w ∈ ws', ExpressionText w) (heq : parens (commas ws) = commas ws') :
    ∃ u, ws = [u] ∧ ws' = [parens u] := by
  cases ws' with
  | nil => cases heq
  | cons w' ws' =>
    obtain ⟨tail, htail, hcase⟩ := commas_cons_append w' ws' []
    rw [List.append_nil] at htail
    rw [htail] at heq
    obtain ⟨unit, known, n, hn⟩ := h' w' List.mem_cons_self
    obtain ⟨k, v, rfl, -⟩ := hn.begins
    obtain rfl : k = .char '(' := (List.cons.inj heq).1.symm
    obtain ⟨n', u, r, hsplit, hu⟩ := hn.paren_prefix
    rw [hsplit, Parser.parens_append, List.cons_append, List.append_assoc, List.cons_append] at heq
    have hinner : commas ws ++ .char ')' :: [] = commas [u] ++ .char ')' :: (r ++ tail) := by
      rw [commas_singleton]
      exact (List.cons.inj heq).2
    obtain ⟨rfl, hend⟩ :=
      commas_unique h (List.forall_mem_singleton.2 ⟨unit, known, n', hu⟩) (by simp) (by simp) hinner
    obtain ⟨rfl, rfl⟩ := List.append_eq_nil_iff.1 (List.cons.inj hend).2.symm
    refine ⟨u, rfl, ?_⟩
    rcases hcase with ⟨rfl, -⟩ | ⟨-, hcomma⟩
    · rw [hsplit, List.append_nil]
    · cases hcomma

theorem ExpressionIn.parens {u : List TokenKind} (h : ExpressionIn unit known u) :
    ExpressionIn unit known (parens u) := by
  obtain ⟨n, hn⟩ := h
  exact ⟨n, (Spells.paren hn).loosen (by decide)⟩

theorem ExpressionIn.of_parens {u : List TokenKind} (hu : ExpressionText u)
    (h : ExpressionIn unit known (Grammar.parens u)) : ExpressionIn unit known u := by
  obtain ⟨n, hn⟩ := h
  obtain ⟨n', v, r, hsplit, hv⟩ := hn.paren_prefix
  rw [Parser.parens_append] at hsplit
  have hinner : commas [u] ++ .char ')' :: [] = commas [v] ++ .char ')' :: r := by
    rw [commas_singleton, commas_singleton]
    exact (List.cons.inj hsplit).2
  obtain ⟨heq, -⟩ := commas_unique (List.forall_mem_singleton.2 hu)
    (List.forall_mem_singleton.2 ⟨unit, known, n', hv⟩) (by simp) (by simp) hinner
  cases heq
  exact ⟨n', hv⟩

/-- What stands behind `print` in a line, for the arguments that it stands for. -/
inductive PrintText (unit : Nat) (known : Set String) : List Node → List TokenKind → Prop
  | call {ns : List Node} {u : List TokenKind} (args : Spells unit known (.args ns) u) : PrintText unit known ns u
  | plain (items : List (List TokenKind × Node))
      (each : ∀ p ∈ items, Spells unit known (.expr .disjunction p.2) p.1) :
      PrintText unit known (items.map Prod.snd) (commas (items.map Prod.fst))

namespace PrintText

variable {ns : List Node} {u : List TokenKind} {ws : List (List TokenKind)}

theorem newline_not_mem (h : PrintText unit known ns u) : .newline ∉ u := by
  cases h with
  | call args => exact args.foreign_not_mem (by decide)
  | plain items each =>
    refine not_mem_commas (by decide) fun w hw => ?_
    obtain ⟨p, hp, rfl⟩ := List.mem_map.1 hw
    exact (each p hp).foreign_not_mem (by decide)

/-- The texts of a list, each an expression where it stands. -/
theorem exists_texts (h : PrintText unit known ns u) : ∃ ws : List (List TokenKind),
    (∀ w ∈ ws, ExpressionIn unit known w) ∧ (u = Grammar.parens (commas ws) ∨ u = commas ws) := by
  have hin {items : List (List TokenKind × Node)}
      (each : ∀ p ∈ items, Spells unit known (.expr .disjunction p.2) p.1) :
      ∀ w ∈ items.map Prod.fst, ExpressionIn unit known w := by
    intro w hw
    obtain ⟨p, hp, rfl⟩ := List.mem_map.1 hw
    exact ⟨p.2, each p hp⟩
  cases h with
  | call args =>
    cases args with
    | args items each => exact ⟨_, hin each, .inl rfl⟩
  | plain items each => exact ⟨_, hin each, .inr rfl⟩

/-- Both forms have the expressions of the list as their arguments, whichever reading of them it is. -/
theorem expressions (hws : ∀ w ∈ ws, ExpressionText w) (hu : u = Grammar.parens (commas ws) ∨ u = commas ws)
    (h : PrintText unit known ns u) : ∀ w ∈ ws, ExpressionIn unit known w := by
  obtain ⟨ws', hin, hu'⟩ := h.exists_texts
  have htext := fun w hw => (hin w hw).text
  rcases hu with rfl | rfl
  · rcases hu' with heq | heq
    · obtain rfl := commas_inj hws htext (List.append_cancel_right (List.cons.inj heq).2)
      exact hin
    · obtain ⟨v, rfl, rfl⟩ := parens_commas_unique hws htext heq
      rw [List.forall_mem_singleton] at hin hws ⊢
      exact hin.of_parens hws
  · rcases hu' with heq | heq
    · obtain ⟨v, rfl, rfl⟩ := parens_commas_unique htext hws heq.symm
      rw [List.forall_mem_singleton] at hin ⊢
      exact hin.parens
    · obtain rfl := commas_inj hws htext heq
      exact hin

end PrintText

/-- A line that prints is one of the two forms. -/
theorem Writes.of_print {a b : ClassNames} {n : Node} {u : List TokenKind}
    (h : Writes unit a (.statement n) (.keyword .kPrint :: u ++ [.newline]) b) :
    b = a ∧ ∃ ns, n = .print {} ns ∧ PrintText unit a.declared ns u := by
  generalize hw : TokenKind.keyword .kPrint :: u ++ [.newline] = w at h
  cases h with
  | printCall args =>
    obtain rfl := List.append_cancel_right (List.cons.inj hw).2
    exact ⟨rfl, _, rfl, .call args⟩
  | print items each =>
    obtain rfl := List.append_cancel_right (List.cons.inj hw).2
    exact ⟨rfl, _, rfl, .plain items each⟩
  | @setField _ path f n w hne value =>
    obtain ⟨x, xs, hx⟩ := List.exists_cons_of_ne_nil (List.append_ne_nil_of_left_ne_nil hne [f])
    rw [hx, pathText_cons] at hw
    cases hw
  | expr value =>
    obtain ⟨k, v, rfl, hk⟩ := value.begins
    obtain rfl := (List.cons.inj hw).1
    exact absurd (by decide) hk.not_mem
  | _ => cases hw

end Grammar

open Grammar

theorem Node.exists_print_of_bare {n : Node} {ns : List Node} (h : n.bare = .print {} ns) :
    ∃ span args, n = .print span args ∧ args.map Node.bare = ns := by
  cases n with
  | print span args =>
    rw [Node.bare] at h
    cases h
    exact ⟨span, args, rfl, rfl⟩
  | ifElse _ _ _ no =>
    cases no with
    | none =>
      rw [Node.bare] at h
      cases h
    | some no =>
      rw [Node.bare] at h
      cases h
  | _ =>
    rw [Node.bare] at h
    cases h

namespace Parser

variable {ws : List (List TokenKind)} {k : Nat} {s s' : Reading} {rest : List TokenKind}

/-- A text up to the first token of a kind. -/
theorem append_cons_unique {k : TokenKind} {u v rest rest' : List TokenKind} (hu : k ∉ u) (hv : k ∉ v)
    (h : u ++ k :: rest = v ++ k :: rest') : u = v ∧ rest = rest' := by
  induction u generalizing v with
  | nil =>
    cases v with
    | nil => exact ⟨rfl, (List.cons.inj h).2⟩
    | cons l v => exact absurd ((List.cons.inj h).1 ▸ List.mem_cons_self) hv
  | cons l u ih =>
    cases v with
    | nil => exact absurd ((List.cons.inj h).1 ▸ List.mem_cons_self) hu
    | cons l' v =>
      obtain ⟨rfl, htail⟩ := List.cons.inj h
      obtain ⟨rfl, hrest⟩ :=
        ih (fun hm => hu (List.mem_cons_of_mem _ hm)) (fun hm => hv (List.mem_cons_of_mem _ hm)) htail
      exact ⟨rfl, hrest⟩

/-- What is read where a line prints. -/
theorem printText_of_statement {u : List TokenKind} (hu : .newline ∉ u)
    (hs : s.kinds = .keyword .kPrint :: (u ++ .newline :: rest)) {n : Node}
    (h : statement k s = .ok (n, s')) :
    s.Took (.keyword .kPrint :: u ++ [.newline]) s' ∧
      ∃ span args, n = .print span args ∧ PrintText s.unit s.names.declared (args.map Node.bare) u := by
  cases k with
  | zero => cases h
  | succ k =>
    have hprint : .keyword .kPrint ∉
        ([.keyword .kClass, .keyword .kIf, .keyword .kDef] : List TokenKind) := by decide
    change statementOver (k + 1) (statement k) s = _ at h
    rw [statementOver_of_line hs hprint] at h
    obtain ⟨n', s₁, hsimple, h⟩ := bind_eq_ok.1 h
    obtain ⟨_, s₂, hexpect, h⟩ := bind_eq_ok.1 h
    obtain ⟨hnew, rfl⟩ := expect_eq_ok.1 hexpect
    obtain ⟨rfl, rfl⟩ := pure_eq_ok.1 h
    obtain ⟨w, ht, hw⟩ := simple_sound _ _ _ hsimple
    have hwrites := hw s.names rfl
    have hend := Reading.kinds_of_next_kind hnew (by simp)
    have htext := ht.text
    rw [hend, hs] at htext
    cases w with
    | nil => cases (List.cons.inj htext).1
    | cons l v =>
      obtain ⟨rfl, hline⟩ := List.cons.inj htext
      obtain ⟨-, ns, hn, hprint⟩ := hwrites.of_print
      obtain ⟨rfl, -⟩ := append_cons_unique hu hprint.newline_not_mem hline
      obtain ⟨span, args, rfl, rfl⟩ := Node.exists_print_of_bare hn
      exact ⟨ht.concat hnew (by simp), span, args, rfl, hprint⟩

/-- A line that prints is read if its arguments are expressions, in either form. -/
theorem statement_of_expressions {items : List (List TokenKind × Node)}
    (each : ∀ p ∈ items, Spells s.unit s.names.declared (.expr .disjunction p.2) p.1) {u : List TokenKind}
    (hu : u = parens (commas (items.map Prod.fst)) ∨ u = commas (items.map Prod.fst))
    (hs : s.kinds = .keyword .kPrint :: (u ++ .newline :: rest)) (hk : s.rest.length ≤ k) :
    ∃ span args s', statement k s = .ok (.print span args, s') ∧ args.map Node.bare = items.map Prod.snd := by
  have hcount := congrArg List.length hs
  rw [Reading.kinds, List.length_map, List.length_cons, List.length_append, List.length_cons] at hcount
  obtain ⟨k, rfl⟩ : ∃ j, k = j + 1 := ⟨k - 1, by omega⟩
  have hprinted (start : Span) :
      ReadsLine (printed (k + 1) start) s.unit s.names.declared (.print {} (items.map Prod.snd)) u := by
    rcases hu with rfl | rfl
    · exact printed_args_reads (.args items each) (by omega) start
    · exact printed_reads each (by omega) start
  have hline : Reaches Node.bare (statementOver (k + 1) (statement k)) s.unit s.names
      (.print {} (items.map Prod.snd)) (.keyword .kPrint :: u ++ [.newline]) s.names fun _ => True :=
    line_reaches rfl (by simp)
      (simple_reads_behind (k := .keyword .kPrint) (by simp) (fun s v => simple_of_print) hprinted) _
  have hs' : s.kinds = (.keyword .kPrint :: u ++ [.newline]) ++ rest := by
    rw [hs, List.append_assoc]
    rfl
  obtain ⟨n, s', hn, -, -, hbare⟩ := hline s rest rfl rfl hs' trivial
  obtain ⟨span, args, rfl, hargs⟩ := Node.exists_print_of_bare hbare
  exact ⟨span, args, s', hn, hargs⟩

end Parser

/-- Two places where a line prints the same list, with parentheses around it in `s` and without in `t`. -/
structure PrintLines (ws : List (List TokenKind)) (s t : Reading) (rest rest' : List TokenKind) : Prop where
  call : s.kinds = .keyword .kPrint :: (parens (commas ws) ++ .newline :: rest)
  plain : t.kinds = .keyword .kPrint :: (commas ws ++ .newline :: rest')
  unit : t.unit = s.unit
  names : t.names.declared = s.names.declared

namespace PrintLines

variable {ws : List (List TokenKind)} {s t : Reading} {rest rest' : List TokenKind} (h : PrintLines ws s t rest rest')
  (hws : ∀ w ∈ ws, ExpressionText w) {j k : Nat}
include h

/-- Where the arguments are expressions, both forms are read and give the same. -/
theorem exists_same (hin : ∀ w ∈ ws, ExpressionIn s.unit s.names.declared w) (hk : s.rest.length ≤ k)
    (hj : t.rest.length ≤ j) :
    ∃ span args s' span' args' t', Parser.statement k s = .ok (.print span args, s') ∧
      Parser.statement j t = .ok (.print span' args', t') ∧ args.map Node.bare = args'.map Node.bare := by
  choose! f hf using hin
  let items : List (List TokenKind × Node) := ws.map fun w => (w, f w)
  have hfst : items.map Prod.fst = ws := by
    rw [List.map_map]
    exact List.map_id ws
  have hitems : ∀ p ∈ items, Spells s.unit s.names.declared (.expr .disjunction p.2) p.1 := List.forall_mem_map.2 hf
  have hitems' : ∀ p ∈ items, Spells t.unit t.names.declared (.expr .disjunction p.2) p.1 := by
    rwa [h.unit, h.names]
  obtain ⟨span, args, s', hs, hargs⟩ := Parser.statement_of_expressions hitems (.inl rfl) (hfst.symm ▸ h.call) hk
  obtain ⟨span', args', t', ht, hargs'⟩ := Parser.statement_of_expressions hitems' (.inr rfl) (hfst.symm ▸ h.plain) hj
  exact ⟨span, args, s', span', args', t', hs, ht, hargs.trans hargs'.symm⟩

include hws

theorem expressions_of_call {n : Node} {s' : Reading} (hs : Parser.statement k s = .ok (n, s')) :
    ∀ w ∈ ws, ExpressionIn s.unit s.names.declared w := by
  obtain ⟨-, span, args, -, hprint⟩ := Parser.printText_of_statement (newline_not_mem_parens hws) h.call hs
  exact hprint.expressions hws (.inl rfl)

theorem expressions_of_plain {n : Node} {t' : Reading} (ht : Parser.statement j t = .ok (n, t')) :
    ∀ w ∈ ws, ExpressionIn s.unit s.names.declared w := by
  obtain ⟨-, span, args, -, hprint⟩ := Parser.printText_of_statement (newline_not_mem_commas hws) h.plain ht
  rw [h.unit, h.names] at hprint
  exact hprint.expressions hws (.inr rfl)

/-- Both forms are read just if their arguments are expressions. -/
theorem read_iff (hk : s.rest.length ≤ k) (hj : t.rest.length ≤ j) :
    ((∃ n s', Parser.statement k s = .ok (n, s')) ↔ ∀ w ∈ ws, ExpressionIn s.unit s.names.declared w) ∧
      ((∃ n t', Parser.statement j t = .ok (n, t')) ↔ ∀ w ∈ ws, ExpressionIn s.unit s.names.declared w) := by
  constructor
  · refine ⟨fun ⟨n, s', hs⟩ => h.expressions_of_call hws hs, fun hin => ?_⟩
    obtain ⟨span, args, s', -, -, -, hs, -⟩ := h.exists_same hin hk hj
    exact ⟨_, s', hs⟩
  · refine ⟨fun ⟨n, t', ht⟩ => h.expressions_of_plain hws ht, fun hin => ?_⟩
    obtain ⟨-, -, -, span', args', t', -, ht, -⟩ := h.exists_same hin hk hj
    exact ⟨_, t', ht⟩

/-- What is read in the two forms has the same arguments, and nothing else has become of the reader. -/
theorem same_arguments (hk : s.rest.length ≤ k) (hj : t.rest.length ≤ j) {n n' : Node} {s' t' : Reading}
    (hs : Parser.statement k s = .ok (n, s')) (ht : Parser.statement j t = .ok (n', t')) :
    ∃ span args span' args', n = .print span args ∧ n' = .print span' args' ∧
      args.map Node.bare = args'.map Node.bare ∧ s'.kinds = rest ∧ t'.kinds = rest' ∧
        s'.declared = s.declared ∧ t'.declared = t.declared := by
  obtain ⟨htook, -⟩ := Parser.printText_of_statement (newline_not_mem_parens hws) h.call hs
  obtain ⟨htook', -⟩ := Parser.printText_of_statement (newline_not_mem_commas hws) h.plain ht
  obtain ⟨span, args, s₁, span', args', t₁, hs₁, ht₁, hargs⟩ :=
    h.exists_same (h.expressions_of_call hws hs) hk hj
  obtain ⟨rfl, rfl⟩ := Prod.mk.inj (Except.ok.inj (hs.symm.trans hs₁))
  obtain ⟨rfl, rfl⟩ := Prod.mk.inj (Except.ok.inj (ht.symm.trans ht₁))
  refine ⟨span, args, span', args', rfl, rfl, hargs, htook.rest ?_, htook'.rest ?_, htook.declared,
    htook'.declared⟩
  · rw [h.call, List.append_assoc]
    rfl
  · rw [h.plain, List.append_assoc]
    rfl

end PrintLines

/-! ### Attempts that are given up -/

namespace Indexed

variable {L : Listing} {c c' : Position}

/-- Wherever a reader by index may stand there is a reading at the same place. -/
theorem exists_meets (hc : c.current ≤ c.furthest) (hf : c.furthest ≤ L.front.length) : ∃ s, Meets L c s := by
  have hlt : c.current - 1 < L.tokens.length := by
    simp only [Listing.tokens, List.length_append, List.length_cons]
    omega
  refine ⟨⟨L.unit, L.tokens[c.current - 1].span, L.front.drop c.current, L.mark, c.declared⟩, rfl, rfl,
    hc.trans hf, hc, hf, ?_, rfl, rfl⟩
  rw [List.getElem?_eq_getElem hlt]
  rfl

/-- Expressions declare no class, whatever becomes of them. -/
theorem declared_of_atLevel (hc : c.current ≤ c.furthest) (hf : c.furthest ≤ L.front.length) (level : Level)
    {r : Except Halt Node} (h : atLevel L level c = some (r, c')) : c'.declared = c.declared := by
  obtain ⟨s, hm⟩ := exists_meets hc hf
  have hrun := follows_expression s.rest.length level hm (le_refl _)
  generalize Parser.expression s.rest.length level s = r' at hrun
  rw [h] at hrun
  cases hrun with
  | ok moved => exact moved.declared trivial
  | error moved => exact moved.declared trivial

/-- An attempt to read arguments in parentheses never fails, and nothing is left of one that is given up. -/
theorem lineArguments_undone (hc : c.current ≤ c.furthest) (hf : c.furthest ≤ L.front.length)
    {r : Except Halt (Option (List Node))} (h : L.list.lineArguments c = some (r, c')) :
    (∃ found, r = .ok found) ∧ c'.declared = c.declared ∧ (r = .ok none → c'.current = c.current) := by
  obtain ⟨s, hm⟩ := exists_meets hc hf
  have hrun : Outcome L True 0 c s (L.list.lineArguments c) (Parser.lineArguments s.rest.length s) :=
    follows_lineArguments _ hm (le_refl _)
  generalize hq : Parser.lineArguments s.rest.length s = r' at hrun
  rw [h] at hrun
  cases hrun with
  | @ok found _ s' moved meets taken =>
    refine ⟨⟨found, rfl⟩, moved.declared trivial, ?_⟩
    rintro ⟨⟩
    obtain rfl := Parser.lineArguments_none hq
    have hlen := meets.length_rest.symm.trans hm.length_rest
    have hle := meets.current_le
    have hle' := hm.current_le
    omega
  | error moved target =>
    rcases Parser.lineArguments_total s.rest.length s with ⟨_, _, htotal⟩ | htotal
    · rw [htotal] at hq
      cases hq
    · rw [htotal] at hq
      cases hq

end Indexed

/-! ### Both forms -/

/-- The two forms of `print` agree, and the attempt to read the one of them is invisible: where a line prints a list
of expressions, with parentheses around it or without,

* either form is read just if the expressions of the list are expressions where the line stands;
* what is read has the same arguments, and the lines behind it are left to be read with the classes as they were;
* no expression declares a class, whether it is read or not;
* an attempt to read arguments in parentheses never fails, and if it is given up the reader is where it was. -/
theorem print_forms {ws : List (List TokenKind)} {s t : Reading} {rest rest' : List TokenKind} {j k : Nat}
    (hws : ∀ w ∈ ws, ExpressionText w) (h : PrintLines ws s t rest rest') (hk : s.rest.length ≤ k)
    (hj : t.rest.length ≤ j) :
    (((∃ n s', Parser.statement k s = .ok (n, s')) ↔ ∀ w ∈ ws, ExpressionIn s.unit s.names.declared w) ∧
      ((∃ n t', Parser.statement j t = .ok (n, t')) ↔ ∀ w ∈ ws, ExpressionIn s.unit s.names.declared w)) ∧
    (∀ n s' n' t', Parser.statement k s = .ok (n, s') → Parser.statement j t = .ok (n', t') →
      ∃ span args span' args', n = .print span args ∧ n' = .print span' args' ∧
        args.map Node.bare = args'.map Node.bare ∧ s'.kinds = rest ∧ t'.kinds = rest' ∧
          s'.declared = s.declared ∧ t'.declared = t.declared) ∧
    ∀ (L : Listing) (c : Position), c.current ≤ c.furthest → c.furthest ≤ L.front.length →
      (∀ level r c', Indexed.atLevel L level c = some (r, c') → c'.declared = c.declared) ∧
      ∀ r c', L.list.lineArguments c = some (r, c') →
        (∃ found, r = .ok found) ∧ c'.declared = c.declared ∧ (r = .ok none → c'.current = c.current) := by
  refine ⟨h.read_iff hws hk hj, fun n s' n' t' => h.same_arguments hws hk hj, fun L c hc hf => ⟨?_, ?_⟩⟩
  · exact fun level r c' => Indexed.declared_of_atLevel hc hf level
  · exact fun r c' => Indexed.lineArguments_undone hc hf

/-- The list `(a) + b, (c)` begins with a parenthesis of its own. -/
theorem print_forms_parens :
    let ws : List (List TokenKind) := [parens [.name "a"] ++ [.char '+', .name "b"], parens [.name "c"]]
    let line (w : List TokenKind) : Reading :=
      ⟨0, {}, (.keyword .kPrint :: (w ++ [.newline])).map fun k => ⟨k, {}⟩, {}, []⟩
    ∃ span args s' span' args' t', Parser.statement 13 (line (parens (commas ws))) = .ok (.print span args, s') ∧
      Parser.statement 11 (line (commas ws)) = .ok (.print span' args', t') ∧
      args.map Node.bare = args'.map Node.bare := by
  intro ws line
  have hname (known : Set String) (x : String) (r : Rank) : Spells 0 known (.expr r (.lookup {} [x])) [.name x] :=
    (Spells.lookup (List.cons_ne_nil x [])).loosen (by cases r <;> decide)
  have hparen (known : Set String) (x : String) (r : Rank) :
      Spells 0 known (.expr r (.lookup {} [x])) (parens [.name x]) :=
    (Spells.paren (hname known x _)).loosen (by cases r <;> decide)
  have hin (known : Set String) : ∀ w ∈ ws, ExpressionIn 0 known w := by
    have hsum : Spells 0 known (.expr .sum _) (parens [.name "a"] ++ [.char '+', .name "b"]) :=
      (hparen known "a" .sum).concat_op (.arith .add) (hname known "b" .product)
    exact List.forall_mem_cons.2 ⟨⟨_, hsum.loosen (by decide)⟩, List.forall_mem_singleton.2 ⟨_, hparen known "c" _⟩⟩
  have hlines : PrintLines ws (line (parens (commas ws))) (line (commas ws)) [] [] := ⟨rfl, rfl, rfl, rfl⟩
  obtain ⟨⟨hcall, hplain⟩, hsame, -⟩ :=
    print_forms (fun w hw => (hin ∅ w hw).text) hlines (by decide : _ ≤ 13) (by decide : _ ≤ 11)
  obtain ⟨n, s', hs⟩ := hcall.2 (hin _)
  obtain ⟨n', t', ht⟩ := hplain.2 (hin _)
  obtain ⟨span, args, span', args', rfl, rfl, hargs, -⟩ := hsame n s' n' t' hs ht
  exact ⟨span, args, s', span', args', t', hs, ht, hargs⟩

end ClassScript
