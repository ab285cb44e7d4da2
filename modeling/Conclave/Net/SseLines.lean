import Conclave.Net.Sse

/-! The lines of an event stream, character by character. A piece of text that does not
begin with the second half of a line end, and that ends in no open event or holds no line
end, gives the events that its characters complete. -/

namespace Conclave.Net.Sse

open Lib Text

/-- A parser that remembers whether a carriage return came last. -/
structure Reading where
  afterCr : Bool
  parser : SseParser
  deriving DecidableEq, Repr

namespace Reading

def endLine (q : Reading) (cr : Bool) : Reading × List SseEvent :=
  let next := { q.parser with pending := [] }.interpret q.parser.pending
  (⟨cr, next.1⟩, next.2)

def step (q : Reading) (c : Char) : Reading × List SseEvent :=
  if c = '\n' then if q.afterCr then ({ q with afterCr := false }, []) else q.endLine false
  else if c = '\r' then q.endLine true
  else (⟨false, { q.parser with pending := q.parser.pending ++ [c] }⟩, [])

def read (q : Reading) (t : Text) : Reading × List SseEvent := transduce step q t

theorem read_append (q : Reading) (s t : Text) :
    q.read (s ++ t) = (((q.read s).1.read t).1, (q.read s).2 ++ ((q.read s).1.read t).2) :=
  transduce_append step q s t

theorem read_cons (q : Reading) (c : Char) (t : Text) :
    q.read (c :: t) = (((q.step c).1.read t).1, (q.step c).2 ++ ((q.step c).1.read t).2) := rfl

end Reading

/-- Characters of which no line end consists. -/
def Inline (t : Text) : Prop := '\n' ∉ t ∧ '\r' ∉ t

namespace SseParser

@[simp] theorem dispatch_pending (p : SseParser) : p.dispatch.1.pending = p.pending := by
  unfold dispatch
  split_ifs <;> rfl

@[simp] theorem interpret_pending (p : SseParser) (line : Text) :
    (p.interpret line).1.pending = p.pending := by
  unfold interpret
  dsimp only
  split_ifs <;> first | rfl | exact dispatch_pending p

/-- What a line does has nothing to do with the text behind it. -/
theorem interpret_setPending (p : SseParser) (line pending : Text) :
    { p with pending := pending }.interpret line =
      ({ (p.interpret line).1 with pending := pending }, (p.interpret line).2) := by
  unfold interpret dispatch
  dsimp only
  split_ifs <;> rfl

/-- Between two events. -/
def Idle (p : SseParser) : Prop := p.dataBuf = [] ∧ p.eventType = []

instance (p : SseParser) : Decidable p.Idle := inferInstanceAs (Decidable (_ ∧ _))

theorem interpret_nil_of_idle {p : SseParser} (h : p.Idle) : p.interpret [] = (p, []) := by
  obtain ⟨pending, dataBuf, eventType, lastEventId⟩ := p
  obtain ⟨rfl, rfl⟩ := h
  rfl

end SseParser

namespace Reading

theorem step_inline {q : Reading} {c : Char} (hn : c ≠ '\n') (hr : c ≠ '\r') :
    q.step c = (⟨false, { q.parser with pending := q.parser.pending ++ [c] }⟩, []) := by
  rw [step, if_neg hn, if_neg hr]

/-- Text without a line end adds to the line. -/
theorem read_inline {q : Reading} {t : Text} (h : Inline t) (hq : q.afterCr = false) :
    q.read t = (⟨false, { q.parser with pending := q.parser.pending ++ t }⟩, []) := by
  induction t generalizing q with
  | nil =>
    obtain ⟨afterCr, parser⟩ := q
    simp only at hq
    simp [read, transduce, hq]
  | cons c t ih =>
    obtain ⟨hn, hr⟩ := h
    simp only [List.mem_cons, not_or] at hn hr
    have hrest := ih (q := ⟨false, { q.parser with pending := q.parser.pending ++ [c] }⟩)
      ⟨hn.2, hr.2⟩ rfl
    rw [read_cons, step_inline (Ne.symm hn.1) (Ne.symm hr.1), hrest]
    simp

/-- Only a line feed tells whether a carriage return came before it. -/
theorem read_afterCr {q : Reading} {t : Text} (ht : t ≠ []) (h : t.head? ≠ some '\n') :
    q.read t = (Reading.mk false q.parser).read t := by
  cases t with
  | nil => exact absurd rfl ht
  | cons c t =>
    have hc : c ≠ '\n' := by simpa using h
    simp [read_cons, step, hc, endLine]

/-! ### Line ends -/

theorem normalize_cons {c : Char} {t : Text} (h : ¬(c = '\r' ∧ t.head? = some '\n')) :
    SseParser.normalize (c :: t) = (if c = '\r' then '\n' else c) :: SseParser.normalize t := by
  unfold SseParser.normalize
  rw [SseParser.replaceCrlf.eq_def]
  split
  · rename_i heq
    cases heq
    exact absurd ⟨rfl, rfl⟩ h
  · rename_i heq
    cases heq
    rfl
  · rename_i heq
    cases heq

theorem normalize_crlf (t : Text) :
    SseParser.normalize ('\r' :: '\n' :: t) = '\n' :: SseParser.normalize t := by
  simp [SseParser.normalize, SseParser.replaceCrlf]

theorem cr_not_mem_normalize (t : Text) : '\r' ∉ SseParser.normalize t := by
  unfold SseParser.normalize
  rw [List.mem_map]
  rintro ⟨c, -, hc⟩
  split_ifs at hc with h
  · cases hc
  · exact h hc

/-- To the lines it is all the same in what form they end. -/
theorem read_normalize (q : Reading) (t : Text) (hq : q.afterCr = false) :
    (q.read (SseParser.normalize t)).1.parser = (q.read t).1.parser ∧
      (q.read (SseParser.normalize t)).2 = (q.read t).2 ∧
      (q.read (SseParser.normalize t)).1.afterCr = false := by
  induction hn : t.length using Nat.strong_induction_on generalizing t q with
  | _ n ih =>
    subst hn
    match t with
    | [] => exact ⟨rfl, rfl, hq⟩
    | c :: t =>
      by_cases hcrlf : c = '\r' ∧ t.head? = some '\n'
      · obtain ⟨rfl, hhead⟩ := hcrlf
        obtain ⟨t, rfl⟩ : ∃ t', t = '\n' :: t' := by
          cases t with
          | nil => cases hhead
          | cons c' t' => exact ⟨t', by simpa using hhead⟩
        obtain ⟨hparser, hout, hcr⟩ := ih t.length (by simp) (q.endLine false).1 t rfl rfl
        have hleft : q.step '\n' = q.endLine false := by simp [step, hq]
        have hright : q.read ('\r' :: '\n' :: t) =
            (((q.endLine false).1.read t).1, (q.endLine false).2 ++ ((q.endLine false).1.read t).2) := by
          simp [read_cons, step, endLine]
        rw [normalize_crlf, read_cons, hleft, hright]
        exact ⟨hparser, by rw [hout], hcr⟩
      · rw [normalize_cons hcrlf, read_cons, read_cons]
        by_cases hc : c = '\r'
        · subst hc
          have hleft : q.step '\n' = q.endLine false := by simp [step, hq]
          have hright : q.step '\r' = q.endLine true := by simp [step]
          obtain ⟨hparser, hout, hcr⟩ := ih t.length (by simp) (q.endLine false).1 t rfl rfl
          simp only [if_true, hleft, hright]
          cases t with
          | nil => exact ⟨rfl, rfl, rfl⟩
          | cons c' t' =>
            have hhead : (c' :: t').head? ≠ some '\n' := fun h => hcrlf ⟨rfl, h⟩
            rw [read_afterCr (q := (q.endLine true).1) (by simp) hhead]
            exact ⟨hparser, congrArg ((q.endLine false).2 ++ ·) hout, hcr⟩
        · have hstep : (q.step c).1.afterCr = false := by
            unfold step
            split_ifs <;> rfl
          obtain ⟨hparser, hout, hcr⟩ := ih t.length (by simp) (q.step c).1 t hstep rfl
          rw [if_neg hc]
          exact ⟨hparser, by rw [hout], hcr⟩

/-! ### Whole lines -/

/-- A line with nothing of it read before. -/
theorem read_line {p : SseParser} {line : Text} (hp : p.pending = []) (h : Inline line)
    (t : Text) :
    (Reading.mk false p).read (line ++ '\n' :: t) =
      (((Reading.mk false (p.interpret line).1).read t).1,
        (p.interpret line).2 ++ ((Reading.mk false (p.interpret line).1).read t).2) := by
  have hpending : { p with pending := [] } = p := by rw [← hp]
  rw [read_append, read_inline h rfl, read_cons]
  simp [step, endLine, hp, hpending]

theorem read_lines {p : SseParser} {t : Text} (hp : p.pending = []) (ht : '\r' ∉ t) :
    (Reading.mk false p).read (t ++ ['\n']) =
      (⟨false, (transduce SseParser.interpret p (t.splitOn '\n')).1⟩,
        (transduce SseParser.interpret p (t.splitOn '\n')).2) := by
  induction hn : t.length using Nat.strong_induction_on generalizing p t with
  | _ n ih =>
    subst hn
    by_cases hmem : '\n' ∈ t
    · obtain ⟨line, rest, rfl, hline⟩ := List.eq_append_cons_of_mem hmem
      simp only [List.mem_append, List.mem_cons, not_or] at ht
      have hrest := ih rest.length (by simp; omega) (p := (p.interpret line).1)
        (by rw [SseParser.interpret_pending, hp]) ht.2.2 rfl
      rw [List.append_assoc, List.cons_append, read_line hp ⟨hline, ht.1⟩, hrest,
        List.splitOn_append_cons_self_of_not_mem hline]
      rfl
    · rw [read_line hp ⟨hmem, ht⟩, List.splitOn_eq_singleton hmem]
      simp [read, transduce]

end Reading

/-! ### Pieces -/

theorem transduce_interpret_setPending (p : SseParser) (lines : List Text) (pending : Text) :
    transduce SseParser.interpret { p with pending := pending } lines =
      ({ (transduce SseParser.interpret p lines).1 with pending := pending },
        (transduce SseParser.interpret p lines).2) := by
  induction lines generalizing p with
  | nil => rfl
  | cons line lines ih =>
    simp only [transduce, SseParser.interpret_setPending p line pending]
    rw [ih]

theorem interpret_keeps_pending (p : SseParser) (lines : List Text) :
    (transduce SseParser.interpret p lines).1.pending = p.pending :=
  transduce_keeps (P := fun q : SseParser => q.pending = p.pending)
    (fun _ _ h => (SseParser.interpret_pending _ _).trans h) rfl lines

theorem no_complete_line {t : Text} (h : '\n' ∉ t) : t.rdropWhile (· ≠ '\n') = [] := by
  rw [List.rdropWhile_eq_nil_iff]
  intro c hc
  simpa using ne_of_mem_of_not_mem hc h

/-- The last line end of a text, with what is in front of it and behind. -/
theorem complete_lines {t : Text} (h : '\n' ∈ t) :
    ∃ c, t.rdropWhile (· ≠ '\n') = c ++ ['\n'] ∧ t = c ++ '\n' :: t.rtakeWhile (· ≠ '\n') := by
  have hne : t.rdropWhile (· ≠ '\n') ≠ [] := by
    rw [Ne, List.rdropWhile_eq_nil_iff]
    exact fun hall => by simpa using hall _ h
  have hlast : (t.rdropWhile (· ≠ '\n')).getLast hne = '\n' := by
    simpa using List.rdropWhile_last_not (· ≠ '\n') t hne
  have hc : t.rdropWhile (· ≠ '\n') = (t.rdropWhile (· ≠ '\n')).dropLast ++ ['\n'] := by
    conv_lhs => rw [← List.dropLast_append_getLast hne, hlast]
  have happ : t.rdropWhile (· ≠ '\n') ++ t.rtakeWhile (· ≠ '\n') = t :=
    List.rdropWhile_append_rtakeWhile
  refine ⟨_, hc, ?_⟩
  rw [hc, List.append_assoc] at happ
  exact happ.symm

/-- What a parser hands out for a text whose lines all end in line feeds, from the start of
a line. -/
theorem feed_lines {p : SseParser} {t : Text} (hp : p.pending = []) (ht : '\r' ∉ t)
    (h : '\n' ∉ t ∨ ((Reading.mk false p).read t).1.parser.Idle) :
    p.feed t = (((Reading.mk false p).read t).1.parser, ((Reading.mk false p).read t).2) := by
  have hread {rest : Text} {x : SseParser} (hrest : Inline rest) :
      (Reading.mk false x).read rest = (⟨false, { x with pending := x.pending ++ rest }⟩, []) :=
    Reading.read_inline hrest rfl
  unfold SseParser.feed
  simp only [hp, List.nil_append, if_neg ht]
  by_cases hmem : '\n' ∈ t
  · obtain ⟨c, hc, hsplit⟩ := complete_lines hmem
    have hrest : Inline (t.rtakeWhile (· ≠ '\n')) :=
      ⟨fun hm => by simpa using List.mem_rtakeWhile_imp hm,
        fun hm => ht ((List.rtakeWhile_suffix _ _).subset hm)⟩
    generalize t.rtakeWhile (· ≠ '\n') = rest at hsplit hrest ⊢
    have hcr : '\r' ∉ c := fun hm => ht (hsplit ▸ List.mem_append_left _ hm)
    have hidle := h.resolve_left (not_not.2 hmem)
    -- The whole lines, then what is left of the text.
    set x := transduce SseParser.interpret p (c.splitOn '\n') with hx
    have hxp : x.1.pending = [] := (interpret_keeps_pending p _).trans hp
    have hall : (Reading.mk false p).read t =
        (⟨false, { x.1 with pending := rest }⟩, x.2) := by
      rw [hsplit.trans (List.append_cons c '\n' _), Reading.read_append, Reading.read_lines hp hcr,
        ← hx, hread hrest, hxp]
      simp
    rw [hall] at hidle ⊢
    have hnil : x.1.interpret [] = (x.1, []) := SseParser.interpret_nil_of_idle hidle
    rw [if_neg (by rw [hc]; simp), transduce_interpret_setPending, hc,
      List.splitOn_append_cons_self, List.splitOn_nil, transduce_append, ← hx]
    simp [transduce, hnil]
  · rw [if_pos (no_complete_line hmem), hread ⟨hmem, ht⟩, hp]
    rfl

theorem step_pending {q : Reading} (h : Inline q.parser.pending) (c : Char) :
    Inline (q.step c).1.parser.pending := by
  have hnil : Inline [] := ⟨List.not_mem_nil, List.not_mem_nil⟩
  unfold Reading.step Reading.endLine
  split_ifs with hn hcr hr
  · exact h
  · simpa using hnil
  · simpa using hnil
  · obtain ⟨hpn, hpr⟩ := h
    constructor
    · simpa [hpn] using Ne.symm hn
    · simpa [hpr] using Ne.symm hr

theorem read_pending {q : Reading} (h : Inline q.parser.pending) (t : Text) :
    Inline (q.read t).1.parser.pending :=
  transduce_keeps (P := fun q : Reading => Inline q.parser.pending)
    (fun _ c hs => step_pending hs c) h t

/-- A partial line is part of the text to come. -/
theorem feed_pending (p : SseParser) (t : Text) :
    p.feed t = { p with pending := [] }.feed (p.pending ++ t) := rfl

theorem feed_normalize (p : SseParser) (hp : p.pending = []) {t : Text} (h : '\r' ∈ t) :
    p.feed t = p.feed (SseParser.normalize t) := by
  have hnot := Reading.cr_not_mem_normalize t
  simp only [SseParser.feed, hp, List.nil_append, if_pos h, if_neg hnot]

/-- A piece of text is read as its characters are. -/
theorem feed_eq {q : Reading} {t : Text} (hpending : Inline q.parser.pending)
    (hcr : ¬(q.afterCr = true ∧ t.head? = some '\n'))
    (h : Inline t ∨ (q.read t).1.parser.Idle) :
    q.parser.feed t = ((q.read t).1.parser, (q.read t).2) := by
  -- Before the piece nothing is read but its beginning.
  have hq : ((Reading.mk false q.parser).read t).1.parser = (q.read t).1.parser ∧
      ((Reading.mk false q.parser).read t).2 = (q.read t).2 := by
    cases hafter : q.afterCr with
    | false => exact hafter ▸ ⟨rfl, rfl⟩
    | true =>
      cases t with
      | nil => exact ⟨rfl, rfl⟩
      | cons c t =>
        rw [Reading.read_afterCr (q := q) (by simp) fun hn => hcr ⟨hafter, hn⟩]
        exact ⟨rfl, rfl⟩
  have hstart : (Reading.mk false { q.parser with pending := [] }).read (q.parser.pending ++ t) =
      (Reading.mk false q.parser).read t := by
    rw [Reading.read_append, Reading.read_inline hpending rfl]
    simp
  rw [feed_pending]
  by_cases hmem : '\r' ∈ q.parser.pending ++ t
  · obtain ⟨hparser, hout, -⟩ := Reading.read_normalize
      (Reading.mk false { q.parser with pending := [] }) (q.parser.pending ++ t) rfl
    have hidle : (q.read t).1.parser.Idle := by
      refine h.resolve_left fun hin => ?_
      exact (List.mem_append.1 hmem).elim hpending.2 hin.2
    rw [feed_normalize _ rfl hmem, feed_lines rfl (Reading.cr_not_mem_normalize _), hparser, hout,
      hstart, hq.1, hq.2]
    right
    rw [hparser, hstart, hq.1]
    exact hidle
  · rw [feed_lines rfl hmem, hstart, hq.1, hq.2]
    rw [hstart, hq.1]
    refine h.imp_left fun hin hn => ?_
    exact (List.mem_append.1 hn).elim hpending.1 hin.1

end Conclave.Net.Sse
