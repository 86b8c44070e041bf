import ClassScript.Object.Ownership

/-!
# What is lost

A thing is lost if it is no root and none but lost things own it.  Main statement: a release takes away
just what is lost (`countOf_remaining_eq_zero_iff`), so what is on a heap is alive just if it is not
lost (`alive_iff_not_lost`).

The proof follows the release with a list of the things that are still left.  The owners counted for a
thing are those of this list and the roots; what is free is on the list and has no owner counted.
-/

namespace ClassScript.Release

/-! ### Counting -/

theorem countOf_modify_sub (counts : Array Nat) (i j : Nat) :
    countOf (counts.modify j (· - 1)) i = countOf counts i - if j = i then 1 else 0 := by
  simp only [countOf, Array.getElem?_modify]
  split <;> cases counts[i]? <;> simp

theorem countOf_modify_add {counts : Array Nat} {i : Nat} (h : i < counts.size) (j : Nat) :
    countOf (counts.modify j (· + 1)) i = countOf counts i + if j = i then 1 else 0 := by
  simp only [countOf, Array.getElem?_modify]
  split <;> simp [h]

theorem size_add (counts : Array Nat) (things : List Nat) :
    (add counts things).size = counts.size := by
  induction things generalizing counts with
  | nil => rfl
  | cons j rest ih =>
    change (add (counts.modify j (· + 1)) rest).size = _
    rw [ih, Array.size_modify]

theorem countOf_add {counts : Array Nat} {i : Nat} (h : i < counts.size) (things : List Nat) :
    countOf (add counts things) i = countOf counts i + things.count i := by
  induction things generalizing counts with
  | nil => rfl
  | cons j rest ih =>
    change countOf (add (counts.modify j (· + 1)) rest) i = _
    rw [ih (by rwa [Array.size_modify]), countOf_modify_add h, List.count_cons]
    simp only [beq_iff_eq]
    omega

theorem getElem?_beq_one (counts : Array Nat) (j : Nat) :
    (counts[j]? == some 1) = decide (countOf counts j = 1) := by
  unfold countOf
  cases counts[j]? with
  | none => rfl
  | some k => rw [Option.getD_some, Option.some_beq_some]; rfl

theorem withdraw_cons (counts : Array Nat) (free : List Nat) (j : Nat) (rest : List Nat) :
    withdraw counts free (j :: rest) =
      withdraw (counts.modify j (· - 1)) (if countOf counts j = 1 then j :: free else free) rest := by
  simp only [withdraw, getElem?_beq_one, decide_eq_true_eq]

theorem countOf_withdraw (counts : Array Nat) (free things : List Nat) (i : Nat) :
    countOf (withdraw counts free things).1 i = countOf counts i - things.count i := by
  induction things generalizing counts free with
  | nil => rfl
  | cons j rest ih =>
    rw [withdraw_cons, ih, countOf_modify_sub, List.count_cons]
    simp only [beq_iff_eq]
    omega

theorem mem_withdraw {counts : Array Nat} {free things : List Nat}
    (h : ∀ i, 0 < countOf counts i → things.count i ≤ countOf counts i) (i : Nat) :
    i ∈ (withdraw counts free things).2 ↔
      i ∈ free ∨ (0 < countOf counts i ∧ countOf counts i = things.count i) := by
  induction things generalizing counts free with
  | nil =>
    rw [withdraw, List.count_nil]
    refine ⟨Or.inl, fun hi => ?_⟩
    obtain hi | hi := hi
    · exact hi
    · omega
  | cons j rest ih =>
    simp only [List.count_cons, beq_iff_eq] at h ⊢
    have h' : ∀ i, 0 < countOf (counts.modify j (· - 1)) i →
        rest.count i ≤ countOf (counts.modify j (· - 1)) i := by
      intro i hi
      have hc := h i
      rw [countOf_modify_sub] at hi ⊢
      omega
    have hc := h i
    rw [withdraw_cons, ih h', countOf_modify_sub]
    by_cases hj : j = i
    · subst hj
      simp only [if_true] at hc ⊢
      by_cases hl : countOf counts j = 1
      · simp only [hl, if_true, List.mem_cons, true_or, true_iff]
        omega
      · rw [if_neg hl]
        refine or_congr_right ?_
        omega
    · have hf : i ∈ (if countOf counts j = 1 then j :: free else free) ↔ i ∈ free := by
        split
        · simp [Ne.symm hj]
        · rfl
      simp only [hf, hj, if_false, Nat.sub_zero, Nat.add_zero]

theorem nodup_withdraw {counts : Array Nat} {free things : List Nat} (hf : free.Nodup)
    (h : ∀ i ∈ free, countOf counts i = 0) : (withdraw counts free things).2.Nodup := by
  induction things generalizing counts free with
  | nil => exact hf
  | cons j rest ih =>
    rw [withdraw_cons]
    split
    · rename_i hl
      refine ih (List.nodup_cons.2 ⟨fun hj => ?_, hf⟩) fun i hi => ?_
      · have := h j hj
        omega
      · rw [countOf_modify_sub]
        obtain rfl | hi := List.mem_cons.1 hi
        · simp [hl]
        · have := h i hi
          omega
    · refine ih hf fun i hi => ?_
      rw [countOf_modify_sub]
      have := h i hi
      omega

/-! ### Releasing -/

section

variable (owned : Nat → List Nat) (n : Nat) (roots : List Nat)

/-- What is released in the end: what no root is and none but released things own. -/
inductive Lost : Nat → Prop
  | intro {i : Nat} (root : i ∉ roots) (owners : ∀ j < n, i ∈ owned j → Lost j) : Lost i

/-- The state of a release, where `left` has not been released yet. -/
structure Underway (left free : List Nat) (counts : Array Nat) : Prop where
  lt : ∀ i ∈ left, i < n
  nodup_left : left.Nodup
  nodup_free : free.Nodup
  count : ∀ i < n, countOf counts i = roots.count i + (left.flatMap owned).count i
  mem_free : ∀ i, i ∈ free ↔ i ∈ left ∧ countOf counts i = 0
  gone : ∀ i < n, i ∉ left → countOf counts i = 0 ∧ Lost owned n roots i
  outside : ∀ i, n ≤ i → countOf counts i = 0

end

variable {owned : Nat → List Nat} {n : Nat} {roots : List Nat}

theorem Underway.lost {left free : List Nat} {counts : Array Nat} {i : Nat}
    (h : Underway owned n roots left free counts) (hi : i < n) (hc : countOf counts i = 0) :
    Lost owned n roots i := by
  have hz := h.count i hi
  rw [hc] at hz
  refine .intro (fun hr => ?_) fun j hj ho => ?_
  · have := List.count_pos_iff.2 hr
    omega
  · refine (h.gone j hj fun hl => ?_).2
    have := List.count_pos_iff.2 (List.mem_flatMap.2 ⟨j, hl, ho⟩)
    omega

theorem Underway.step {left free : List Nat} {counts : Array Nat} {i : Nat}
    (h : Underway owned n roots left (i :: free) counts) :
    Underway owned n roots (left.erase i) (withdraw counts free (owned i)).2
      (withdraw counts free (owned i)).1 := by
  obtain ⟨hl, hz⟩ := (h.mem_free i).1 List.mem_cons_self
  have hi := h.lt i hl
  have hp : ∀ x, (left.flatMap owned).count x =
      (owned i).count x + ((left.erase i).flatMap owned).count x := by
    intro x
    have := ((List.perm_cons_erase hl).flatMap_right owned).count_eq x
    rw [this, List.flatMap_cons, List.count_append]
  have hw : ∀ x, 0 < countOf counts x → (owned i).count x ≤ countOf counts x := by
    intro x hx
    by_cases hn : x < n
    · rw [h.count x hn, hp]; omega
    · have := h.outside x (by omega); omega
  have hf := List.nodup_cons.1 h.nodup_free
  have hfree : ∀ x, x ∈ free ↔ x ≠ i ∧ x ∈ left ∧ countOf counts x = 0 := by
    intro x
    rw [← h.mem_free x, List.mem_cons]
    constructor
    · intro hx; exact ⟨fun e => hf.1 (e ▸ hx), Or.inr hx⟩
    · rintro ⟨hne, rfl | hx⟩
      · exact absurd rfl hne
      · exact hx
  have hleft : ∀ x, x ∈ left.erase i ↔ x ≠ i ∧ x ∈ left := fun x => h.nodup_left.mem_erase_iff
  refine ⟨fun x hx => h.lt x ((hleft x).1 hx).2, h.nodup_left.erase i,
    nodup_withdraw hf.2 fun x hx => ((hfree x).1 hx).2.2, ?_, ?_, ?_, ?_⟩
  · intro x hx
    rw [countOf_withdraw, h.count x hx, hp]
    omega
  · intro x
    rw [mem_withdraw hw, countOf_withdraw, hfree, hleft]
    have hx : x ∉ left → countOf counts x = 0 := fun hx => by
      by_cases hn : x < n
      · exact (h.gone x hn hx).1
      · exact h.outside x (by omega)
    have hwx := hw x
    by_cases hm : x ∈ left
    · by_cases he : x = i
      · subst he; simp [hz]
      · simp only [ne_eq, he, not_false_eq_true, hm, true_and]; omega
    · simp [hm, hx hm]
  · intro x hx hm
    rw [countOf_withdraw]
    by_cases he : x = i
    · subst he; exact ⟨by omega, h.lost hi hz⟩
    · have := h.gone x hx fun hm' => hm ((hleft x).2 ⟨he, hm'⟩)
      exact ⟨by omega, this.2⟩
  · intro x hx
    rw [countOf_withdraw, h.outside x hx]
    omega

theorem Underway.countOf_settle_eq_zero_iff {left free : List Nat} {counts : Array Nat} {m i : Nat}
    (h : Underway owned n roots left free counts) (hm : left.length ≤ m) (hi : i < n) :
    countOf (settle owned m free counts) i = 0 ↔ Lost owned n roots i := by
  induction m generalizing left free counts with
  | zero =>
    obtain rfl : left = [] := List.length_eq_zero_iff.1 (by omega)
    have := h.gone i hi List.not_mem_nil
    simp [settle, this]
  | succ m ih =>
    cases free with
    | nil =>
      rw [settle]
      · refine ⟨h.lost hi, fun hl => ?_⟩
        clear ih
        induction hl with
        | @intro i root _ ihl =>
          rw [h.count i hi, List.count_eq_zero.2 root, Nat.zero_add, List.count_eq_zero]
          intro hm
          obtain ⟨j, hj, ho⟩ := List.mem_flatMap.1 hm
          exact List.not_mem_nil ((h.mem_free j).2 ⟨hj, ihl j (h.lt j hj) ho (h.lt j hj)⟩)
      · omega
    | cons j free =>
      rw [settle]
      have hl := ((h.mem_free j).1 List.mem_cons_self).1
      refine ih h.step ?_
      rw [List.length_erase_of_mem hl]
      omega

/-! ### The count at the beginning -/

theorem size_census : (census owned n roots).size = n := by
  suffices ∀ (js : List Nat) (counts : Array Nat),
      (js.foldl (fun counts i => add counts (owned i)) counts).size = counts.size by
    rw [census, this, size_add, Array.size_replicate]
  intro js
  induction js with
  | nil => intro counts; rfl
  | cons j js ih => intro counts; rw [List.foldl_cons, ih, size_add]

theorem countOf_census {i : Nat} (hi : i < n) :
    countOf (census owned n roots) i =
      roots.count i + ((List.range n).flatMap owned).count i := by
  suffices ∀ (js : List Nat) (counts : Array Nat), i < counts.size →
      countOf (js.foldl (fun counts i => add counts (owned i)) counts) i =
        countOf counts i + (js.flatMap owned).count i by
    rw [census, this _ _ (by simpa [size_add] using hi), countOf_add (by simpa using hi)]
    simp [countOf, hi]
  intro js
  induction js with
  | nil => intro counts _; rfl
  | cons j js ih =>
    intro counts hc
    rw [List.foldl_cons, ih _ (by rwa [size_add]), countOf_add hc, List.flatMap_cons,
      List.count_append]
    omega

theorem getElem?_beq_zero {counts : Array Nat} {i : Nat} (hi : i < counts.size) :
    (counts[i]? == some 0) = true ↔ countOf counts i = 0 := by
  simp [countOf, hi]

/-- Things are left without an owner just if none but such things have owned them. -/
theorem countOf_remaining_eq_zero_iff {i : Nat} (hi : i < n) :
    countOf (remaining owned n roots) i = 0 ↔ Lost owned n roots i := by
  suffices h : Underway owned n roots (List.range n)
      ((List.range n).filter fun i => (census owned n roots)[i]? == some 0) (census owned n roots) from
    h.countOf_settle_eq_zero_iff (by simp) hi
  refine ⟨fun i hi => List.mem_range.1 hi, List.nodup_range, List.nodup_range.filter _,
    fun i hi => countOf_census hi, fun i => ?_, fun i hi hn => absurd (List.mem_range.2 hi) hn, ?_⟩
  · rw [List.mem_filter]
    refine and_congr_right fun hm => getElem?_beq_zero ?_
    rw [size_census]
    exact List.mem_range.1 hm
  · intro i hi
    simp [countOf, size_census, hi]

/-- A thing that a line of owners leads to from outside is not released. -/
theorem not_lost_of_reaches {i m : Nat} {work : List Nat} {seen : Array Bool}
    (h : reaches owned i m work seen = true)
    (hw : ∀ j ∈ work, ¬ Lost owned n roots j) (hn : seen.size ≤ n) : ¬ Lost owned n roots i := by
  induction m generalizing work seen with
  | zero => simp [reaches] at h
  | succ m ih =>
    rw [reaches] at h
    split at h
    · cases h
    · rename_i j rest hd
      have hs : ∀ k ∈ j :: rest, k ∈ work := fun k hk =>
        (List.dropWhile_suffix _).mem (hd ▸ hk)
      have hj := hw j (hs j List.mem_cons_self)
      have hlt : j < n := by
        have hs := List.head?_dropWhile_not (fun j => seen[j]?.getD true) work
        rw [hd] at hs
        refine Nat.lt_of_not_le fun hle => ?_
        simp [Array.getElem?_eq_none (Nat.le_trans hn hle)] at hs
      rw [Bool.or_eq_true, decide_eq_true_iff] at h
      obtain rfl | h := h
      · exact hj
      · refine ih h (fun k hk hl => ?_) (by simpa using hn)
        obtain hk | hk := List.mem_append.1 hk
        · cases hl with
          | intro _ owners => exact hj (owners j hlt hk)
        · exact hw k (hs k (List.mem_cons_of_mem _ hk)) hl

end ClassScript.Release

namespace ClassScript.Heap

theorem slot?_lt {h : Heap} {e : Entity} {i : Nat} (he : h.slot? e = some i) : i < h.population := by
  unfold population
  cases e with
  | object o =>
    obtain ⟨ho, rfl⟩ : o < h.objects.size ∧ o = i := by simpa [slot?] using he
    exact Nat.lt_add_right _ ho
  | cls c =>
    obtain ⟨j, hj, rfl⟩ := Option.map_eq_some_iff.1 he
    obtain ⟨hj, -⟩ := List.findIdx?_eq_some_iff_getElem.1 hj
    exact Nat.add_lt_add_left hj _

/-- Something on a heap is alive just if it is not lost. -/
theorem alive_iff_not_lost {h : Heap} {roots : List Entity} {e : Entity} {i : Nat}
    (he : h.slot? e = some i) :
    h.alive roots e = true ↔
      ¬ Release.Lost h.slotsAt h.population (roots.filterMap h.slot?) i := by
  have hi := slot?_lt he
  rw [← Release.countOf_remaining_eq_zero_iff hi]
  simp only [alive, he, Bool.or_eq_true, decide_eq_true_eq]
  refine ⟨fun ha => ?_, Or.inr⟩
  obtain ha | ha := ha
  · rw [Release.countOf_remaining_eq_zero_iff hi]
    refine Release.not_lost_of_reaches ha (fun j hj hl => ?_) (by simp)
    cases hl with
    | intro root _ => exact root hj
  · exact ha

end ClassScript.Heap
