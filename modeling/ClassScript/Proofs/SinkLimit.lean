import ClassScript.Proofs.Calls
import ClassScript.Proofs.DepthLimit
import ClassScript.Run.Logic

/-!
# The limit of a sink

A run whose output goes to a sink with room for so many bytes does what it does without the limit until
the room is used up.  There it ends, whatever is being done, and just the bytes that there is room for are
written.  The two runs are compared step by step: `Cuts L a b` says that `b`, of which the sink has a limit,
does what `a` does or fails when `L` bytes are written.  Main statement: `runText_sink_limit`.
-/

namespace ClassScript

namespace Sink

/-- A sink with more bytes written, and nothing else changed. -/
structure Grows (s t : Sink) : Prop where
  begins : s.Begins t
  limit : t.limit = s.limit
  flushFails : t.flushFails = s.flushFails

theorem Grows.refl (s : Sink) : s.Grows s := ⟨.refl s, rfl, rfl⟩

theorem Grows.trans {s t u : Sink} (h : s.Grows t) (h' : t.Grows u) : s.Grows u :=
  ⟨h.begins.trans h'.begins, h'.limit.trans h.limit, h'.flushFails.trans h.flushFails⟩

theorem grows_write (s : Sink) (text : String) : s.Grows (s.write text) := ⟨.write s text, rfl, rfl⟩

/-- The sink in the place of `s` if there is room for `L` bytes only. -/
def cut (L : Nat) (s : Sink) : Sink := { s with written := s.written.extract 0 L, limit := some L }

theorem extract_min_size (b : ByteArray) (k : Nat) : b.extract 0 (min k b.size) = b.extract 0 k := by
  have h : (b.extract 0 b.size).extract 0 k = b.extract (0 + 0) (min (0 + k) b.size) :=
    ByteArray.extract_extract
  rw [ByteArray.extract_zero_size, Nat.zero_add, Nat.zero_add] at h
  exact h.symm

theorem extract_of_size_le {b : ByteArray} {L : Nat} (h : b.size ≤ L) : b.extract 0 L = b := by
  rw [← extract_min_size, Nat.min_eq_right h, ByteArray.extract_zero_size]

variable {s t : Sink} {L : Nat}

/-- More bytes behind those that fill the room are of no account. -/
theorem Begins.extract_written (h : s.Begins t) (hL : L ≤ s.written.size) :
    t.written.extract 0 L = s.written.extract 0 L := by
  obtain ⟨more, hmore⟩ := h
  rw [hmore, ByteArray.extract_append, Nat.sub_eq_zero_of_le hL, Nat.zero_sub, ByteArray.extract_same,
    ByteArray.append_empty]

theorem Begins.size_le (h : s.Begins t) : s.written.size ≤ t.written.size := by
  obtain ⟨more, hmore⟩ := h
  rw [hmore, ByteArray.size_append]
  exact Nat.le_add_right _ _

/-- What is written behind what fills the room is of no account. -/
theorem Grows.cut (h : s.Grows t) (hL : L ≤ s.written.size) : t.cut L = s.cut L := by
  unfold Sink.cut
  rw [h.begins.extract_written hL, h.flushFails]

theorem write_of_unlimited (h : s.limit = none) (text : String) :
    (s.write text).written = s.written ++ text.toUTF8 := by
  show s.written ++ text.toUTF8.extract 0 (s.accepts text.utf8ByteSize) = _
  rw [accepts, h]
  exact congrArg (s.written ++ ·) ByteArray.extract_zero_size

theorem accepts_cut (hL : s.written.size ≤ L) (size : Nat) :
    (s.cut L).accepts size = min size (L - s.written.size) := by
  show min size (L - (s.written.extract 0 L).size) = _
  rw [extract_of_size_le hL]

/-- A sink with room takes the same bytes, as long as there is room. -/
theorem cut_write (h : s.limit = none) (hL : s.written.size ≤ L) (text : String) :
    (s.cut L).write text = (s.write text).cut L := by
  have hfirst : text.toUTF8.extract 0 (min text.utf8ByteSize (L - s.written.size)) =
      text.toUTF8.extract 0 (L - s.written.size) := by
    rw [Nat.min_comm]
    exact extract_min_size text.toUTF8 _
  have hbytes : s.written.extract 0 L ++ text.toUTF8.extract 0 ((s.cut L).accepts text.utf8ByteSize) =
      (s.write text).written.extract 0 L := by
    rw [accepts_cut hL, write_of_unlimited h, ByteArray.extract_append, Nat.zero_sub, hfirst]
  exact congrArg (fun w => ({ s with written := w, limit := some L } : Sink)) hbytes

/-- A text fits where all that is written with it does. -/
theorem fits_cut (h : s.limit = none) (hL : s.written.size ≤ L) (text : String) :
    (s.cut L).fits text = decide ((s.write text).written.size ≤ L) := by
  rw [fits, accepts_cut hL, write_of_unlimited h, ByteArray.size_append]
  have hsize : text.toUTF8.size = text.utf8ByteSize := rfl
  rw [hsize]
  refine decide_eq_decide.2 ?_
  omega

end Sink

namespace Machine

/-- What is read does not depend on what has been printed. -/
theorem follow_sink (m : Machine) (s : Sink) (v : Value) (seen xs : List String) :
    ({ m with sink := s } : Machine).follow v seen xs = m.follow v seen xs := by
  induction xs generalizing v seen with
  | nil => rfl
  | cons x xs ih =>
    cases v with
    | obj a =>
      simp only [follow, ih]
      rfl
    | _ => rfl

theorem read_sink (m : Machine) (s : Sink) (path : List String) :
    ({ m with sink := s } : Machine).read path = m.read path := by
  cases path with
  | nil => rfl
  | cons x xs =>
    simp only [read, follow_sink]
    rfl

end Machine

/-- The machine in the place of `m` if its sink has room for `L` bytes only. -/
def Machine.cut (L : Nat) (m : Machine) : Machine := { m with sink := m.sink.cut L }

/-- A machine that may print without limit, and has not printed more than `L` bytes. -/
def Machine.Roomy (L : Nat) (m : Machine) : Prop := m.sink.limit = none ∧ m.sink.written.size ≤ L

namespace Exec

variable {α β : Type} {L : Nat}

/-- The failure of an action for which there is no room in a sink. -/
def full : Except Signal α := .error (.error (.output Sink.fullText))

/-- What becomes of an end of an action if there is room for `L` bytes only: the same end if they are
enough, and otherwise the failure with the bytes that there is room for. -/
inductive CutTo (L : Nat) : Except Signal α × Machine → Except Signal α × Machine → Prop
  | fits {r : Except Signal α} {m : Machine} (h : m.sink.written.size ≤ L) : CutTo L (r, m) (r, m.cut L)
  | full {r : Except Signal α} {m m' : Machine} (h : L < m.sink.written.size)
    (hs : m'.sink = m.sink.cut L) : CutTo L (r, m) (full, m')

theorem CutTo.of_full {p : Except Signal α × Machine} {m : Machine} (h : L < p.2.sink.written.size)
    (hs : m.sink = p.2.sink.cut L) : CutTo L p (Exec.full, m) := .full h hs

/-- `b` with room for `L` bytes ends as `a` does, unless they are not enough. -/
structure Cuts (L : Nat) (Q : α → Prop) (a b : Exec α) : Prop where
  grows : ∀ m : Machine, m.sink.Grows (a m).2.sink
  result : ∀ m x, (a m).1 = .ok x → Q x
  cut : ∀ m : Machine, m.Roomy L → CutTo L (a m) (b (m.cut L))

/-- An action that neither prints nor depends on what has been printed. -/
def Silent (a : Exec α) : Prop := ∀ m s, a { m with sink := s } = ((a m).1, { (a m).2 with sink := s })

theorem Silent.sink {a : Exec α} (h : Silent a) (m : Machine) : (a m).2.sink = m.sink :=
  congrArg (fun r => r.2.sink) (h m m.sink)

theorem Silent.read {f : Machine → Exec α} (hf : Blind f) (h : ∀ m, Silent (f m)) :
    Silent (get >>= f) := by
  intro m s
  show f { m with sink := s } { m with sink := s } = _
  rw [hf]
  exact h m m s

theorem Silent.pure (x : α) : Silent (pure x : Exec α) := fun _ _ => rfl

theorem Silent.raise (fault : RuntimeFault) (span : Span) : Silent (raise fault span : Exec α) :=
  fun _ _ => rfl

theorem silent_object (a : Handle) (span : Span) : Silent (object a span) := by
  refine .read (fun _ _ => rfl) fun m => ?_
  split
  · exact .pure _
  · exact .raise _ _

theorem silent_readPath (path : List String) (span : Span) : Silent (readPath path span) := by
  refine .read (fun m s => by rw [Machine.read_sink]) fun m => ?_
  split
  · exact .pure _
  · exact .raise _ _

theorem silent_checkDepth (limit : Option Nat) (span : Span) : Silent (checkDepth limit span) := by
  cases limit with
  | none => exact .pure ()
  | some n =>
    refine .read (fun _ _ => rfl) fun m => ?_
    split
    · exact .raise _ _
    · exact .pure ()

namespace Cuts

variable {Q Q' : α → Prop} {a b : Exec α}

theorem silent (h : Silent a) (hQ : ∀ m x, (a m).1 = .ok x → Q x) : Cuts L Q a a where
  grows m := by
    rw [h.sink]
    exact .refl _
  result := hQ
  cut m hm := by
    have hs : (a m).2.sink = m.sink := h.sink m
    have heq : a (m.cut L) = ((a m).1, (a m).2.cut L) := by
      rw [Machine.cut, h, Machine.cut, hs]
    rw [heq]
    exact .fits (by rw [hs]; exact hm.2)

theorem mono (h : Cuts L Q a b) (hQ : ∀ x, Q x → Q' x) : Cuts L Q' a b :=
  ⟨h.grows, fun m x hx => hQ x (h.result m x hx), h.cut⟩

theorem bind {f g : α → Exec β} {R : β → Prop} (h : Cuts L Q a b)
    (hf : ∀ x, Q x → Cuts L R (f x) (g x)) : Cuts L R (a >>= f) (b >>= g) := by
  have hgrow : ∀ m, (a m).2.sink.Grows ((a >>= f) m).2.sink := by
    intro m
    rw [bind_apply]
    rcases hr : a m with ⟨s | x, m'⟩
    · exact .refl _
    · exact (hf x (h.result m x (by rw [hr]))).grows m'
  refine ⟨fun m => (h.grows m).trans (hgrow m), fun m y hy => ?_, fun m hm => ?_⟩
  · obtain ⟨x, m', ha, hx⟩ := exists_of_bind_eq_ok (Prod.ext hy rfl)
    exact (hf x (h.result m x (by rw [ha]))).result m' y (by rw [hx])
  · have hcut := h.cut m hm
    have hlimit := (h.grows m).limit
    have hres := h.result m
    have hrest := hgrow m
    rw [bind_apply] at hrest ⊢
    rw [bind_apply]
    revert hcut hlimit hres hrest
    generalize a m = p, b (m.cut L) = q
    intro hcut hlimit hres hrest
    cases hcut with
    | @fits r m' hle =>
      cases r with
      | error s => exact .fits hle
      | ok x => exact (hf x (hres x rfl)).cut m' ⟨hlimit.trans hm.1, hle⟩
    | @full r m' m'' hlt hs =>
      -- what comes behind prints only more
      refine .of_full (Nat.lt_of_lt_of_le hlt hrest.begins.size_le) ?_
      rw [hs, hrest.cut (Nat.le_of_lt hlt)]

/-- An action that is started with another machine, of which the end is seen from there, neither of
which depends on what has been printed. -/
theorem of_apply (f : Machine → Machine) (back : Machine → Machine → Machine) {c d : Exec α}
    (hc : ∀ m, c m = ((a (f m)).1, back m (a (f m)).2))
    (hd : ∀ m, d m = ((b (f m)).1, back m (b (f m)).2)) (h : Cuts L Q a b)
    (hf : ∀ m s, f { m with sink := s } = { f m with sink := s })
    (hback : ∀ m m' s s', back { m with sink := s } { m' with sink := s' } =
      { back m m' with sink := s' }) : Cuts L Q c d := by
  have hsink : ∀ m, (f m).sink = m.sink := by
    intro m
    have heq := congrArg Machine.sink (hf m m.sink)
    exact heq
  have hend : ∀ m m', (back m m').sink = m'.sink := by
    intro m m'
    have heq := congrArg Machine.sink (hback m m' m.sink m'.sink)
    exact heq
  refine ⟨fun m => ?_, fun m x hx => h.result (f m) x (by rwa [hc] at hx), fun m hm => ?_⟩
  · have hg := h.grows (f m)
    rw [hsink] at hg
    rw [hc, hend]
    exact hg
  · have hroom : (f m).Roomy L := by
      rw [Machine.Roomy, hsink]
      exact hm
    have hcut := h.cut (f m) hroom
    have hstart : f (m.cut L) = (f m).cut L := by
      rw [Machine.cut, hf, Machine.cut, hsink]
    rw [hc, hd, hstart]
    revert hcut
    generalize a (f m) = p, b ((f m).cut L) = q
    intro hcut
    cases hcut with
    | @fits r m' hle =>
      have heq : back (m.cut L) (m'.cut L) = (back m m').cut L := by
        rw [Machine.cut, Machine.cut, hback, Machine.cut, hend]
      rw [← hend m] at hle
      rw [heq]
      exact .fits hle
    | @full r m' m'' hlt hs =>
      rw [← hend m m'] at hlt hs
      exact .full hlt ((hend _ m'').trans hs)

/-- An action that is chosen by the machine, but not by what has been printed. -/
theorem read {f g : Machine → Exec α} (hg : Blind g) (h : ∀ m, Cuts L Q (f m) (g m)) :
    Cuts L Q (get >>= f) (get >>= g) where
  grows m := (h m).grows m
  result m x hx := (h m).result m x hx
  cut m hm := by
    have heq : (get >>= g) (m.cut L) = g m (m.cut L) := congrFun (hg m (m.sink.cut L)) (m.cut L)
    rw [heq]
    exact (h m).cut m hm

/-- An action of which the result is changed, but not the failure for want of room. -/
theorem ended {g : Except Signal α → Except Signal β} {R : β → Prop} {c d : Exec β}
    (hc : ∀ m, c m = (g (a m).1, (a m).2)) (hd : ∀ m, d m = (g (b m).1, (b m).2))
    (hg : g Exec.full = Exec.full) (h : Cuts L Q a b) (hR : ∀ m x, g (a m).1 = .ok x → R x) :
    Cuts L R c d := by
  refine ⟨fun m => ?_, fun m x hx => hR m x (by rwa [hc] at hx), fun m hm => ?_⟩
  · rw [hc]
    exact h.grows m
  · have hcut := h.cut m hm
    rw [hc, hd]
    revert hcut
    generalize a m = p, b (m.cut L) = q
    intro hcut
    cases hcut with
    | fits hle => exact .fits hle
    | full hlt hs =>
      dsimp only
      rw [hg]
      exact .full hlt hs

theorem traced (e : Event) (h : Cuts L Q a b) : Cuts L Q (traced e a) (traced e b) :=
  h.of_apply (fun m => { m with trace := m.trace.push e })
    (fun _ m' => { m' with trace := m'.trace.push .leave }) (fun _ => rfl) (fun _ => rfl)
    (fun _ _ => rfl) fun _ _ _ _ => rfl

theorem inFrame (frame : Scope) (h : Cuts L Q a b) : Cuts L Q (inFrame frame a) (inFrame frame b) :=
  h.of_apply (fun m => { m with scope := frame, callers := m.scope :: m.callers, depth := m.depth + 1 })
    (fun m m' => { m' with scope := m.scope, callers := m.callers, depth := m'.depth - 1 }) (fun _ => rfl)
    (fun _ => rfl) (fun _ _ => rfl) fun _ _ _ _ => rfl

theorem write (text : String) : Cuts L (fun _ => True) (write text) (write text) := by
  refine ⟨fun m => ?_, fun _ _ _ => trivial, fun m hm => ?_⟩
  · rw [write_apply]
    exact Sink.grows_write _ text
  · rw [write_apply, write_apply, Sink.fits_of_unlimited hm.1]
    have hfits : (m.cut L).sink.fits text = decide ((m.sink.write text).written.size ≤ L) :=
      Sink.fits_cut hm.1 hm.2 text
    have hwrite : (m.cut L).sink.write text = (m.sink.write text).cut L :=
      Sink.cut_write hm.1 hm.2 text
    rw [hfits, hwrite]
    by_cases hle : (m.sink.write text).written.size ≤ L
    · rw [decide_eq_true hle]
      exact .fits hle
    · rw [decide_eq_false hle]
      exact .full (Nat.lt_of_not_le hle) rfl

theorem returned {Q : Value → Prop} {a b : Exec Value} (h : Cuts L Q a b) :
    Cuts L (fun _ => True) (returned a) (returned b) :=
  h.ended (returned_apply _) (returned_apply _) rfl fun _ _ _ => trivial

/-- To end alike up to the limit is a logic of actions. -/
theorem logic : Logic (fun _ => True) (fun _ _ => True) fun _ Q a b => Cuts L Q a b where
  plain _ _ := trivial
  cls _ := trivial
  mono h _ hQ := h.mono hQ
  pure hx := .silent (.pure _) fun _ _ heq => Except.ok.inj heq ▸ hx
  raise span _ := .silent (.raise _ span) fun _ _ => nofun
  ret _ _ := .silent (fun _ _ => rfl) fun _ _ => nofun
  bind := .bind
  read _ hg h := .read hg.blind h
  holding {_ _ _ _ _ v} _ h :=
    h.of_apply (fun m => { m with held := v :: m.held }) (fun m m' => { m' with held := m.held })
      (fun _ => rfl) (fun _ => rfl) (fun _ _ => rfl) fun _ _ _ _ => rfl
  object {_ a} span _ := .silent (silent_object a span) fun _ _ ho => ⟨id_of_object ho, trivial⟩
  readPath path span := .silent (silent_readPath path span) fun _ _ _ => trivial
  write := .write
  tell _ := .silent (fun _ _ => rfl) fun _ _ _ => trivial
  create _ _ := .silent (fun _ _ => rfl) fun _ _ _ => trivial
  setName _ _ _ := .silent (fun _ _ => rfl) fun _ _ _ => trivial
  setField _ _ _ _ := .silent (fun _ _ => rfl) fun _ _ _ => trivial

theorem callMethod {limit : Option Nat} {e e' : Node → Exec Value}
    (he : ∀ n, Cuts L (fun _ => True) (e n) (e' n)) (o : ObjId) (name : String) (args : List Value)
    (span : Span) :
    Cuts L (fun _ => True) (callMethod limit e o name args span) (callMethod limit e' o name args span) := by
  refine .read (fun _ _ => rfl) fun m => .traced _ (.read (fun _ _ => rfl) fun m' => ?_)
  split
  · exact .silent (.raise _ span) fun _ _ => nofun
  · refine .bind (.silent (silent_checkDepth limit span) fun _ _ _ => trivial) fun _ _ => .inFrame _ ?_
    exact (he _).ended (closed_apply _) (closed_apply _) rfl fun _ _ _ => trivial

theorem exec_text (limit : Option Nat) (n : Nat) :
    (∀ node, Cuts L (fun _ => True) (exec limit n node) (exec limit n node)) ∧
      ∀ span v, Cuts L (fun _ => True) (text limit n span v) (text limit n span v) := by
  induction n with
  | zero =>
    refine ⟨fun _ => ?_, fun _ _ => ?_⟩
    · exact .silent (fun _ _ => rfl) fun _ _ => nofun
    · exact .silent (fun _ _ => rfl) fun _ _ => nofun
  | succ n ih =>
    have hp : Pieces (fun _ => True) (fun _ => True) (fun _ Q a b => Cuts L Q a b) []
        (Exec.callMethod limit (exec limit n)) (Exec.callMethod limit (exec limit n)) (exec limit n)
        (exec limit n) (text limit n) (text limit n) :=
      ⟨fun a name args span _ _ _ => .callMethod ih.1 a.id name args span, fun node _ => ih.1 node,
        fun span v _ => ih.2 span v⟩
    refine ⟨fun _ => ?_, fun span _ => hp.textOver logic.toRules span trivial⟩
    exact hp.execOver logic (fun _ _ => trivial) (fun _ _ _ _ _ => trivial) fun _ _ _ => .returned

end Cuts

end Exec

/-- A run with room for `L` bytes ends as the run without a limit does, unless they are not enough. -/
theorem Machine.cutTo_exec (limit : Option Nat) (n : Nat) (node : Node) {m : Machine} {L : Nat}
    (hm : m.Roomy L) : Exec.CutTo L (Exec.exec limit n node m) (Exec.exec limit n node (m.cut L)) :=
  ((Exec.Cuts.exec_text limit n).1 node).cut m hm

/-- What is reported of a run that has ended. -/
def Machine.report (m : Machine) (r : Except RuntimeError Value) : Report where
  failure := if m.sink.flushFails then some (.io Sink.flushText) else
    match r with
    | .ok _ => none
    | .error e => some (.runtime e)
  output := m.sink.written
  trace := m.trace

/-- A sink is reported by the bytes that are written. -/
theorem Machine.report_cut {m : Machine} {L : Nat} (h : m.sink.written.size ≤ L)
    (r : Except RuntimeError Value) : (m.cut L).report r = m.report r := by
  have hwritten : (m.cut L).sink.written = m.sink.written := Sink.extract_of_size_le h
  have hflush : (m.cut L).sink.flushFails = m.sink.flushFails := rfl
  unfold report
  rw [hwritten, hflush]
  rfl

theorem runText_of_ofText {program : String} {root : Node} (h : Node.ofText 0 program = .ok root)
    (limit : Option Nat) (sink : Sink) (fuel : Nat) :
    runText program limit sink fuel =
      (Machine.verdict (Exec.exec limit fuel root (({ sink := sink } : Machine).load root)).1).map
        (Exec.exec limit fuel root (({ sink := sink } : Machine).load root)).2.report := by
  rw [runText, h]
  rfl

/-- A sink with too little room cuts what a program prints, and makes it fail; one with enough changes
nothing. -/
theorem runText_sink_limit {program : String} {limit : Option Nat} {fuel : Nat} {report : Report}
    (h : runText program limit {} fuel = some report) (L : Nat) :
    (report.output.size ≤ L → runText program limit { limit := some L } fuel = some report) ∧
      (L < report.output.size → ∃ trace, runText program limit { limit := some L } fuel =
        some {
          failure := some (.runtime (.output Sink.fullText))
          output := report.output.extract 0 L
          trace := trace }) := by
  cases hroot : Node.ofText 0 program with
  | error f =>
    -- a program that is not read prints nothing
    rw [runText, hroot] at h
    cases h
    refine ⟨fun _ => ?_, fun hL => absurd hL (Nat.not_lt_zero L)⟩
    rw [runText, hroot]
  | ok root =>
    rw [runText_of_ofText hroot] at h ⊢
    have hstart : ({ sink := { limit := some L } } : Machine).load root =
        (({ sink := {} } : Machine).load root).cut L := by
      have hempty : ByteArray.empty.extract 0 L = .empty := Sink.extract_of_size_le (Nat.zero_le L)
      exact congrArg (fun w => ({ sink := { written := w, limit := some L } } : Machine).load root) hempty.symm
    have hroomy : (({ sink := {} } : Machine).load root).Roomy L := ⟨rfl, Nat.zero_le L⟩
    have hcut := Machine.cutTo_exec limit fuel root hroomy
    have hflush := (((Exec.Cuts.exec_text (L := L) limit fuel).1 root).grows
      (({ sink := {} } : Machine).load root)).flushFails
    rw [hstart]
    revert h hcut hflush
    generalize Exec.exec limit fuel root (({ sink := {} } : Machine).load root) = p,
      Exec.exec limit fuel root ((({ sink := {} } : Machine).load root).cut L) = q
    intro h hcut hflush
    obtain ⟨x, hx, rfl⟩ := Option.map_eq_some_iff.1 h
    cases hcut with
    | @fits r m hle =>
      refine ⟨fun _ => ?_, fun hlt => absurd hle (Nat.not_le.2 hlt)⟩
      rw [hx, Option.map_some, Machine.report_cut hle]
    | @full r m m' hlt hs =>
      refine ⟨fun hle => absurd hle (Nat.not_le.2 hlt), fun _ => ⟨m'.trace, ?_⟩⟩
      have hfails : m'.sink.flushFails = false := by
        rw [hs]
        exact hflush
      have houtput : m'.sink.written = m.sink.written.extract 0 L := by
        rw [hs]
        rfl
      show some (m'.report _) = _
      rw [Machine.report, hfails, houtput]
      rfl

/-- A program that prints five bytes where there is room for three. -/
theorem runText_sink_limit_three :
    runText "print('ab', 1)\n" none {} 9 = some { failure := none, output := "ab 1\n".toUTF8 } ∧
      ∃ trace, runText "print('ab', 1)\n" none { limit := some 3 } 9 =
        some {
          failure := some (.runtime (.output Sink.fullText))
          output := "ab 1\n".toUTF8.extract 0 3
          trace := trace } := by
  have h : runText "print('ab', 1)\n" none {} 9 = some { failure := none, output := "ab 1\n".toUTF8 } := by
    decide +kernel
  exact ⟨h, (runText_sink_limit h 3).2 (by decide)⟩

end ClassScript
