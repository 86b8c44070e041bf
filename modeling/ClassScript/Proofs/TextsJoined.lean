import ClassScript.Proofs.Layout

/-!
# One text behind another

The end mark of a text stands at its end only.  A text behind one that ends a line is read as it is by
itself, if it does not begin with an indent: what is left of the levels of the first text at its end is left
just as well in front of the second.  Main statement: `tokens_append`.
-/

namespace ClassScript.Source

/-! ### End marks -/

theorem ne_eof_of_lexeme {c : Char} {cs : List Char} {k : TokenKind} {n : Nat} (h : lexeme c cs = .ok (k, n)) :
    k ≠ .eof := by
  rintro rfl
  unfold lexeme at h
  split at h
  · rename_i k hk
    have hne : k ≠ .eof := by
      unfold withEquals? at hk
      split at hk <;> cases hk <;> exact nofun
    split at h
    · cases h
      exact hne rfl
    · cases h
  split at h
  · cases hq : quoted c cs with
    | ok r =>
      rw [hq] at h
      cases h
    | error f =>
      rw [hq] at h
      cases h
  split at h
  · unfold number at h
    dsimp only at h
    split at h
    · cases h
    · cases h
  split at h
  · have hk : TokenKind.ofWord (String.ofList (c :: cs.takeWhile Text.isWordPart)) = .eof :=
      congrArg Prod.fst (Except.ok.inj h)
    unfold TokenKind.ofWord at hk
    split at hk <;> cases hk
  split at h
  · cases h
  · cases h

theorem eof_not_mem_scanBody (cs : List Char) : ∀ p ∈ (scanBody cs).pieces, .eof ∉ p.kinds := by
  fun_induction scanBody cs with
  | case1 => exact List.forall_mem_singleton.2 (by simp)
  | case2 cs => exact List.forall_mem_singleton.2 (by simp)
  | case3 c cs _ _ ih => exact List.forall_mem_cons.2 ⟨List.not_mem_nil, ih⟩
  | case4 cs _ _ ih => exact List.forall_mem_cons.2 ⟨List.not_mem_nil, ih⟩
  | case5 c cs _ _ _ k n hk ih =>
    refine List.forall_mem_cons.2 ⟨fun hm => ?_, ih⟩
    exact ne_eof_of_lexeme hk (List.mem_singleton.1 hm).symm
  | case6 => exact List.forall_mem_nil _

/-- A line has a fault in its margin, or a margin with no token and no level of its own behind it, or the level of
its margin. -/
theorem scanLine_cases (line : List Char) :
    (∃ f text, ∀ level, scanLine level line = (.failed f text, level)) ∨
    ∃ margin body, line = margin ++ body ∧ (∀ c ∈ margin, isMargin c = true) ∧
      (((∀ c ∈ body.head?, c = '\n' ∨ c = '#') ∧
          ∀ level, scanLine level line = (⟨[⟨line, []⟩], none⟩, level)) ∨
        ∃ new, ∀ level,
          scanLine level line = ((scanBody body).cons ⟨margin, levelMarks level new⟩, new)) := by
  have hsplit : line = line.takeWhile isMargin ++ line.dropWhile isMargin := List.takeWhile_append_dropWhile.symm
  have hmargin : ∀ c ∈ line.takeWhile isMargin, isMargin c = true := List.all_eq_true.1 List.all_takeWhile
  unfold scanLine
  dsimp only
  split
  · rename_i hbody
    exact .inr ⟨_, _, hsplit, hmargin, .inl ⟨by simp [hbody], fun _ => rfl⟩⟩
  rename_i c body hbody
  split
  · exact .inl ⟨_, _, fun _ => rfl⟩
  split
  · rename_i hc
    refine .inr ⟨_, _, hsplit, hmargin, .inl ⟨fun d hd => ?_, fun _ => rfl⟩⟩
    rw [hbody] at hd
    cases hd
    exact hc
  split
  · exact .inr ⟨_, _, hsplit, hmargin, .inr ⟨_, fun _ => by rw [hbody]⟩⟩
  · exact .inl ⟨_, _, fun _ => rfl⟩

theorem eof_not_mem_scanLine (level : Nat) (line : List Char) :
    ∀ p ∈ (scanLine level line).1.pieces, .eof ∉ p.kinds := by
  rcases scanLine_cases line with ⟨f, text, h⟩ | ⟨margin, body, -, -, ⟨-, h⟩ | ⟨new, h⟩⟩
  · rw [h]
    exact List.forall_mem_nil _
  · rw [h]
    exact List.forall_mem_singleton.2 List.not_mem_nil
  · rw [h]
    exact List.forall_mem_cons.2 ⟨eof_not_mem_levelMarks level new, eof_not_mem_scanBody body⟩

/-! ### Lines behind lines -/

theorem Scan.Gives.of_append {s t : Scan} {ks : List TokenKind} (h : (s.append t).Gives ks) :
    ∃ js ls, s.Gives js ∧ t.Gives ls ∧ ks = js ++ ls := by
  obtain ⟨hfault, rfl⟩ := h
  unfold Scan.append at hfault ⊢
  cases hf : s.fault with
  | some f =>
    rw [hf] at hfault
    exact absurd hfault (by rw [hf]; exact nofun)
  | none =>
    rw [hf] at hfault
    exact ⟨_, _, ⟨hf, rfl⟩, ⟨hfault, rfl⟩, List.flatMap_append⟩

/-- The tokens of lines end with those that leave the levels reached.  With other lines behind them, the
tokens of these stand there instead. -/
theorem scanLines_append {front : List (List Char)} {level : Nat} {ks : List TokenKind}
    (h : (scanLines level front).Gives ks) :
    ∃ js reached, ks = js ++ .replicate reached .dedent ++ [.eof] ∧ .eof ∉ js ∧
      ∀ back ls, (scanLines reached back).Gives ls → (scanLines level (front ++ back)).Gives (js ++ ls) := by
  -- the level is carried along the lines; `reached` is the one behind the last of them
  induction front generalizing level ks with
  | nil =>
    obtain ⟨-, rfl⟩ := h
    exact ⟨[], level, List.append_nil _, List.not_mem_nil, fun _ _ hback => hback⟩
  | cons line rest ih =>
    rw [scanLines_cons] at h
    obtain ⟨js, ls, hline, hrest, rfl⟩ := h.of_append
    obtain ⟨is, reached, rfl, heof, hjoin⟩ := ih hrest
    refine ⟨js ++ is, reached, by simp, fun hm => ?_, fun back ls hback => ?_⟩
    · rcases List.mem_append.1 hm with hm | hm
      · rw [← hline.2] at hm
        obtain ⟨p, hp, hk⟩ := List.mem_flatMap.1 hm
        exact eof_not_mem_scanLine level line p hp hk
      · exact heof hm
    · rw [List.cons_append, scanLines_cons, List.append_assoc]
      exact hline.append (hjoin back ls hback)

/-- Lines that do not begin with an indent are read the same from a deeper level, which is left first. -/
theorem scanLines_deeper {ls : List (List Char)} {ks : List TokenKind} (h : (scanLines 0 ls).Gives ks)
    (hfirst : ks.head? ≠ some .indent) (level : Nat) :
    (scanLines level ls).Gives (.replicate level .dedent ++ ks) := by
  induction ls generalizing ks with
  | nil =>
    obtain ⟨-, rfl⟩ := h
    exact ⟨rfl, List.append_nil _⟩
  | cons line rest ih =>
    rw [scanLines_cons] at h ⊢
    obtain ⟨js, is, hline, hrest, rfl⟩ := h.of_append
    rcases scanLine_cases line with ⟨f, text, h⟩ | ⟨margin, body, -, -, ⟨-, h⟩ | ⟨new, h⟩⟩
    · rw [h] at hline
      cases hline.1
    · rw [h] at hline hrest ⊢
      obtain rfl : [] = js := hline.2
      have hline' : Scan.Gives ⟨[⟨line, []⟩], none⟩ [] := ⟨rfl, rfl⟩
      exact hline'.append (ih hrest hfirst)
    · -- the first line with a token stands at no level, so here all levels are left
      rw [h] at hline hrest ⊢
      obtain ⟨hfault, rfl⟩ := hline
      obtain rfl : new = 0 := by
        rcases Nat.eq_zero_or_pos new with hnew | hnew
        · exact hnew
        · obtain ⟨n, rfl⟩ := Nat.exists_eq_add_of_lt hnew
          exact absurd rfl hfirst
      have hbody : (scanBody body).Gives ((scanBody body).pieces.flatMap Piece.kinds) := ⟨hfault, rfl⟩
      have hjoin := (hbody.cons ⟨margin, levelMarks level 0⟩).append hrest
      rwa [levelMarks, if_neg (Nat.not_lt_zero level), Nat.sub_zero, List.append_assoc] at hjoin

/-! ### Texts behind texts -/

theorem eq_locate_of_tokens {text : String} {ts : List Token} (h : tokens text = .ok ts) :
    (scan text.toList).fault = none ∧ ts = locate {} (scan text.toList).pieces := by
  unfold tokens at h
  dsimp only at h
  split at h
  · rename_i hf
    cases h
    exact ⟨hf, rfl⟩
  · cases h

theorem gives_of_tokens {text : String} {ts : List Token} (h : tokens text = .ok ts) :
    (scan text.toList).Gives (ts.map Token.kind) := by
  obtain ⟨hf, rfl⟩ := eq_locate_of_tokens h
  exact ⟨hf, (map_kind_locate _ _).symm⟩

/-- The tokens of a text end with the only end mark. -/
theorem tokens_ended {text : String} {ts : List Token} (h : tokens text = .ok ts) :
    ∃ us last, ts = us ++ [last] ∧ last.kind = .eof ∧ ∀ t ∈ us, t.kind ≠ .eof := by
  obtain ⟨js, reached, hkinds, heof, -⟩ := scanLines_append (gives_of_tokens h)
  obtain ⟨us, vs, rfl, hus, hvs⟩ := List.map_eq_append_iff.1 hkinds
  obtain ⟨last, rfl, hlast⟩ := List.map_eq_singleton_iff.1 hvs
  refine ⟨us, last, rfl, hlast, fun t ht hk => ?_⟩
  have hm : .eof ∈ js ++ .replicate reached .dedent := hus ▸ hk ▸ List.mem_map_of_mem ht
  rcases List.mem_append.1 hm with hm | hm
  · exact heof hm
  · cases List.eq_of_mem_replicate hm

/-- A text behind one that ends a line, if it is not indented, is read as it is by itself. -/
theorem tokens_append {front back : String} {ts us : List Token} (hfront : front = "" ∨ ∃ s, front = s ++ "\n")
    (h : tokens front = .ok ts) (h' : tokens back = .ok us)
    (hback : (us.map Token.kind).head? ≠ some .indent) :
    ∃ vs, tokens (front ++ back) = .ok vs ∧
      ∃ ks, ts.map Token.kind = ks ++ [.eof] ∧ vs.map Token.kind = ks ++ us.map Token.kind := by
  obtain ⟨js, reached, hkinds, -, hjoin⟩ := scanLines_append (gives_of_tokens h)
  have hlines : lines (front ++ back).toList = lines front.toList ++ lines back.toList := by
    rcases hfront with rfl | ⟨s, rfl⟩
    · rw [String.empty_append]
      rfl
    · rw [String.toList_append, String.toList_append, List.append_assoc]
      exact lines_append_newline _ _
  have hdeep := hjoin _ _ (scanLines_deeper (gives_of_tokens h') hback reached)
  rw [← hlines] at hdeep
  obtain ⟨vs, hvs, hkinds'⟩ := hdeep.tokens
  exact ⟨vs, hvs, js ++ .replicate reached .dedent, hkinds, by rw [hkinds', List.append_assoc]⟩

end ClassScript.Source
