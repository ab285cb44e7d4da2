import Conclave.Lib.Cuts
import Conclave.Net.Chunked
import Conclave.Net.SseFraming

/-! A chunked body is read the same by the scanner and by the decoder, as long as the scanner
has no reason to let pass what the standard does not. -/

namespace Conclave.Net.Chunked

open Lib Text Sse

variable {b line rest out : Bytes} {i n p : ℕ}

@[simp] theorem crlf_length : crlf.length = 2 := rfl

/-! ### Lines -/

theorem findCrlf_append (h : findCrlf b = some p) (rest : Bytes) :
    findCrlf (b ++ rest) = some p := by
  induction b generalizing p with
  | nil => cases h
  | cons a b ih =>
    by_cases hcrlf : a = 0x0d ∧ b.head? = some 0x0a
    · obtain ⟨rfl, hb⟩ := hcrlf
      cases b with
      | nil => cases hb
      | cons a' b =>
        obtain rfl := Option.some.inj hb
        exact h
    · rw [findCrlf_cons hcrlf] at h
      obtain ⟨q, hq, rfl⟩ := Option.map_eq_some_iff.mp h
      rw [List.cons_append, findCrlf_cons, ih hq]
      · rfl
      · cases b with
        | nil => cases hq
        | cons a' b => exact hcrlf

theorem findCrlf_line (h : IsLine line) (rest : Bytes) :
    findCrlf (line ++ crlf ++ rest) = some line.length := findCrlf_append h rest

/-- The first line of what has a line break. -/
theorem exists_line (h : findCrlf b = some p) :
    ∃ line rest, b = line ++ crlf ++ rest ∧ IsLine line ∧ line.length = p := by
  induction b generalizing p with
  | nil => cases h
  | cons a b ih =>
    by_cases hcrlf : a = 0x0d ∧ b.head? = some 0x0a
    · obtain ⟨rfl, hb⟩ := hcrlf
      cases b with
      | nil => cases hb
      | cons a' b =>
        obtain rfl := Option.some.inj hb
        obtain rfl := Option.some.inj h
        exact ⟨[], b, rfl, rfl, rfl⟩
    · rw [findCrlf_cons hcrlf] at h
      obtain ⟨q, hq, rfl⟩ := Option.map_eq_some_iff.mp h
      obtain ⟨line, rest, rfl, hline, hlen⟩ := ih hq
      refine ⟨a :: line, rest, rfl, ?_, congrArg (· + 1) hlen⟩
      show findCrlf (a :: (line ++ crlf)) = _
      rw [findCrlf_cons, hline]
      · rfl
      · cases line with
        | nil => exact hcrlf
        | cons a' line => exact hcrlf

theorem take_line (line rest : Bytes) : (line ++ crlf ++ rest).take line.length = line := by
  rw [List.append_assoc, List.take_left]

theorem drop_line (line rest : Bytes) : (line ++ crlf ++ rest).drop (line.length + 2) = rest := by
  have hlen : (line ++ crlf).length = line.length + 2 := List.length_append
  rw [← hlen, List.drop_left]

theorem line_inj {line' rest' : Bytes} (h : line ++ crlf ++ rest = line' ++ crlf ++ rest')
    (hline : IsLine line) (hline' : IsLine line') : line = line' ∧ rest = rest' := by
  have hlen : line.length = line'.length := by
    have hfind := findCrlf_line hline rest
    rw [h, findCrlf_line hline' rest'] at hfind
    exact (Option.some.inj hfind).symm
  have htake := take_line line rest
  have hdrop := drop_line line rest
  rw [h, hlen] at htake hdrop
  rw [take_line] at htake
  rw [drop_line] at hdrop
  exact ⟨htake.symm, hdrop.symm⟩

/-- Without a carriage return nothing is a line break. -/
theorem isLine_of_not_mem (h : (0x0d : UInt8) ∉ line) : IsLine line := by
  induction line with
  | nil => rfl
  | cons a line ih =>
    rw [IsLine, List.cons_append, findCrlf_cons, ih fun hrest => h (List.mem_cons_of_mem _ hrest)]
    · rfl
    · rintro ⟨rfl, -⟩
      exact h (List.mem_cons_self ..)

theorem isLine_nil_or {line : Bytes} (hline : IsLine line) (hne : line ≠ []) (rest : Bytes) :
    (line ++ crlf ++ rest).take 2 ≠ crlf := by
  intro htake
  have hfind := findCrlf_line hline rest
  match hb : line ++ crlf ++ rest with
  | [] => rw [hb] at hfind; cases hfind
  | [a] => rw [hb] at htake; cases htake
  | a :: a' :: tail =>
    rw [hb] at htake hfind
    obtain ⟨rfl, htail⟩ := List.cons.inj htake
    obtain ⟨rfl, -⟩ := List.cons.inj htail
    have hzero := Option.some.inj hfind
    exact hne (List.length_eq_zero_iff.mp hzero.symm)

/-! ### The scanner, line by line -/

theorem scanFrom_line (h : IsLine line) : scanFrom i (line ++ crlf ++ rest) =
    match scanSize line with
    | none => some false
    | some n =>
      if n = 0 then some (trailersEnd rest)
      else if 2 ^ 64 ≤ i + (line.length + 2) + n + 2 then none
      else if rest.length < n + 2 then some false
      else scanFrom (i + (line.length + 2) + n + 2) (rest.drop (n + 2)) := by
  rw [scanFrom]
  split
  · next hnone => exact absurd ((findCrlf_line h rest).symm.trans hnone) (Option.some_ne_none _)
  · next p hp =>
    obtain rfl := Option.some.inj ((findCrlf_line h rest).symm.trans hp)
    dsimp only
    refine (@forall_eq' _ (_ = ·) _).mp fun v hv => ?_
    rw [take_line, drop_line]
    exact hv

theorem scanFrom_eof (h : findCrlf b = none) : scanFrom i b = some false := by
  rw [scanFrom]
  split
  · rfl
  · next p hp => exact absurd (hp.symm.trans h) (Option.some_ne_none p)

theorem trailersEnd_crlf (rest : Bytes) : trailersEnd (crlf ++ rest) = true := by
  rw [trailersEnd, if_neg (by simp [crlf])]
  exact if_pos rfl

theorem trailersEnd_line (h : IsLine line) (hne : line ≠ []) :
    trailersEnd (line ++ crlf ++ rest) = trailersEnd rest := by
  have hlen : ¬ (line ++ crlf ++ rest).length < 2 := by
    simp [crlf]
    omega
  rw [trailersEnd, if_neg hlen, if_neg (isLine_nil_or h hne rest)]
  split
  · next hnone => exact absurd ((findCrlf_line h rest).symm.trans hnone) (Option.some_ne_none _)
  · next p hp =>
    obtain rfl := Option.some.inj ((findCrlf_line h rest).symm.trans hp)
    dsimp only
    rw [drop_line]

theorem trailersEnd_trailers {trailers : List Bytes} (h : ∀ t ∈ trailers, IsLine t ∧ t ≠ [])
    (rest : Bytes) : trailersEnd (trailers.flatMap (· ++ crlf) ++ crlf ++ rest) = true := by
  induction trailers with
  | nil => exact trailersEnd_crlf rest
  | cons t trailers ih =>
    obtain ⟨hline, hne⟩ := h t (List.mem_cons_self ..)
    rw [List.flatMap_cons, List.append_assoc, List.append_assoc, trailersEnd_line hline hne,
      ← List.append_assoc]
    exact ih fun t ht => h t (List.mem_cons_of_mem _ ht)

theorem exists_trailers (h : trailersEnd b = true) :
    ∃ trailers rest, b = List.flatMap (· ++ crlf) trailers ++ crlf ++ rest ∧
      ∀ t ∈ trailers, IsLine t ∧ t ≠ [] := by
  induction hn : b.length using Nat.strong_induction_on generalizing b with
  | h n ih =>
    rw [trailersEnd] at h
    split_ifs at h with hshort hcrlf
    · refine ⟨[], b.drop 2, ?_, nofun⟩
      show b = crlf ++ b.drop 2
      rw [← hcrlf, List.take_append_drop]
    · split at h
      · cases h
      · next p hp =>
        obtain ⟨line, rest, rfl, hline, rfl⟩ := exists_line hp
        dsimp only at h
        rw [drop_line] at h
        have hne : line ≠ [] := by
          rintro rfl
          exact hcrlf rfl
        obtain ⟨trailers, rest', rfl, hall⟩ := ih rest.length (by simp at hn; omega) h rfl
        refine ⟨line :: trailers, rest', by simp [List.append_assoc], ?_⟩
        intro t ht
        rcases List.mem_cons.mp ht with rfl | ht
        · exact ⟨hline, hne⟩
        · exact hall t ht

theorem Chunk.Ok.bytes_length {G : Grammar} {c : Chunk} (h : c.Ok G) :
    c.bytes.length = c.line.length + 2 + c.data.length + 2 := by
  rw [Chunk.bytes, List.length_append, List.length_append, List.length_append, h.length]
  rfl

theorem Chunk.bytes_append (c : Chunk) (rest : Bytes) :
    c.bytes ++ rest = c.line ++ crlf ++ (c.data ++ (c.sep ++ rest)) := by
  rw [Chunk.bytes, List.append_assoc, List.append_assoc (c.line ++ crlf)]

theorem Chunk.Ok.drop_data {G : Grammar} {c : Chunk} (h : c.Ok G) (rest : Bytes) :
    (c.data ++ (c.sep ++ rest)).drop (c.data.length + 2) = rest := by
  rw [← List.append_assoc, ← h.length, ← List.length_append, List.drop_left]

theorem Chunk.Ok.data_pos {G : Grammar} {c : Chunk} (h : c.Ok G) : 0 < c.data.length :=
  List.length_pos_iff.mpr h.data

/-- Loose chunks are passed over. -/
theorem scanFrom_chunks {chunks : List Chunk} (h : ∀ c ∈ chunks, c.Ok loose)
    (hi : i + (chunks.flatMap Chunk.bytes).length < 2 ^ 64) :
    scanFrom i (chunks.flatMap Chunk.bytes ++ rest) =
      scanFrom (i + (chunks.flatMap Chunk.bytes).length) rest := by
  induction chunks generalizing i with
  | nil => rfl
  | cons c chunks ih =>
    have hc := h c (List.mem_cons_self ..)
    have hsize : scanSize c.line = some c.data.length := hc.size
    have hpos := hc.data_pos
    have hlen : ((c :: chunks).flatMap Chunk.bytes).length =
        c.line.length + 2 + c.data.length + 2 + (chunks.flatMap Chunk.bytes).length := by
      rw [List.flatMap_cons, List.length_append, hc.bytes_length]
    have henough : ¬ (c.data ++ (c.sep ++ (chunks.flatMap Chunk.bytes ++ rest))).length <
        c.data.length + 2 := by
      rw [List.length_append, List.length_append, hc.length]
      omega
    rw [hlen] at hi ⊢
    rw [List.flatMap_cons, List.append_assoc, c.bytes_append, scanFrom_line hc.line, hsize]
    dsimp only
    rw [if_neg hpos.ne', if_neg (by omega), if_neg henough, hc.drop_data,
      ih (fun c hc => h c (List.mem_cons_of_mem _ hc)) (by omega)]
    congr 1
    omega

/-- A body of the loose grammar is complete. -/
theorem scan_loose {B : Body} (h : B.Ok loose) (hlen : B.bytes.length < 2 ^ 63) (rest : Bytes) :
    chunkedBodyIsComplete (B.bytes ++ rest) = some true := by
  have hbytes : B.bytes ++ rest = B.chunks.flatMap Chunk.bytes ++
      (B.last ++ crlf ++ (B.trailers.flatMap (· ++ crlf) ++ crlf ++ rest)) := by
    simp only [Body.bytes, List.append_assoc]
  have hchunks : (B.chunks.flatMap Chunk.bytes).length ≤ B.bytes.length := by
    simp only [Body.bytes, List.length_append]
    omega
  have hsize : scanSize B.last = some 0 := h.size
  rw [chunkedBodyIsComplete, hbytes, scanFrom_chunks h.chunks (by omega), scanFrom_line h.line,
    hsize]
  exact congrArg some (trailersEnd_trailers h.trailers rest)

/-- A size line and as much as it says, and two bytes more, are a loose chunk. -/
theorem loose_chunk (hline : IsLine line) (hs : scanSize line = some n) (hn : n ≠ 0)
    (hlen : n + 2 ≤ rest.length) :
    ∃ c : Chunk, c.line = line ∧ c.Ok loose ∧
      line ++ crlf ++ rest = c.bytes ++ rest.drop (n + 2) := by
  have hdata : (rest.take n).length = n := List.length_take_of_le (by omega)
  have hpos : 0 < (rest.take n).length := by omega
  refine ⟨⟨line, rest.take n, (rest.drop n).take 2⟩, rfl, ⟨hline, ?_, ?_, ?_, trivial⟩, ?_⟩
  · show scanSize line = some (rest.take n).length
    rw [hdata, hs]
  · exact List.ne_nil_of_length_pos hpos
  · exact List.length_take_of_le (by rw [List.length_drop]; omega)
  · rw [Chunk.bytes_append, ← List.drop_drop, List.take_append_drop, List.take_append_drop]

/-- What is complete for the scanner has a body of the loose grammar. -/
theorem exists_loose (h : scanFrom i b = some true) :
    ∃ B rest, b = Body.bytes B ++ rest ∧ B.Ok loose := by
  induction hn : b.length using Nat.strong_induction_on generalizing i b with
  | h n ih =>
    match hp : findCrlf b with
    | none => exact absurd ((scanFrom_eof hp).symm.trans h) nofun
    | some p =>
      obtain ⟨line, rest, rfl, hline, -⟩ := exists_line hp
      rw [scanFrom_line hline] at h
      match hs : scanSize line with
      | none => rw [hs] at h; cases h
      | some size =>
        rw [hs] at h
        dsimp only at h
        split_ifs at h with hzero hover hshort
        · subst hzero
          obtain ⟨trailers, rest', rfl, hall⟩ := exists_trailers (Option.some.inj h)
          refine ⟨⟨[], line, trailers⟩, rest', ?_, nofun, hline, hs, hall⟩
          simp only [Body.bytes, List.flatMap_nil, List.nil_append, List.append_assoc]
        · cases h
        · have hlt : (rest.drop (size + 2)).length < n := by
            rw [← hn, List.length_drop, List.length_append, List.length_append, crlf_length]
            omega
          obtain ⟨B, rest', hrest, hB⟩ := ih _ hlt h rfl
          obtain ⟨c, -, hc, hsplit⟩ := loose_chunk hline hs hzero (not_lt.mp hshort)
          refine ⟨⟨c :: B.chunks, B.last, B.trailers⟩, rest', ?_, ?_, hB.line, hB.size, hB.trailers⟩
          · rw [hsplit, hrest]
            simp only [Body.bytes, List.flatMap_cons, List.append_assoc]
          · intro c' hc'
            rcases List.mem_cons.mp hc' with rfl | hc'
            · exact hc
            · exact hB.chunks c' hc'

/-- An index goes over 64 bits only at a size behind loose chunks. -/
theorem exists_overflow (h : scanFrom i b = none) :
    ∃ chunks line rest n, b = List.flatMap Chunk.bytes chunks ++ line ++ crlf ++ rest ∧
      (∀ c ∈ chunks, c.Ok loose) ∧ IsLine line ∧ scanSize line = some n ∧
      2 ^ 64 ≤ i + (List.flatMap Chunk.bytes chunks).length + (line.length + 2) + n + 2 := by
  induction hn : b.length using Nat.strong_induction_on generalizing i b with
  | h n ih =>
    match hp : findCrlf b with
    | none => exact absurd ((scanFrom_eof hp).symm.trans h) nofun
    | some p =>
      obtain ⟨line, rest, rfl, hline, -⟩ := exists_line hp
      rw [scanFrom_line hline] at h
      match hs : scanSize line with
      | none => rw [hs] at h; cases h
      | some size =>
        rw [hs] at h
        dsimp only at h
        split_ifs at h with hzero hover hshort
        · exact ⟨[], line, rest, size, rfl, nofun, hline, hs, hover⟩
        · have hlt : (rest.drop (size + 2)).length < n := by
            rw [← hn, List.length_drop, List.length_append, List.length_append, crlf_length]
            omega
          obtain ⟨chunks, line', rest', n', hrest, hall, hline', hs', hover'⟩ := ih _ hlt h rfl
          obtain ⟨c, hcline, hc, hsplit⟩ := loose_chunk hline hs hzero (not_lt.mp hshort)
          refine ⟨c :: chunks, line', rest', n', ?_, ?_, hline', hs', ?_⟩
          · rw [hsplit, hrest]
            simp only [List.flatMap_cons, List.append_assoc]
          · intro c' hc'
            rcases List.mem_cons.mp hc' with rfl | hc'
            · exact hc
            · exact hall c' hc'
          · have hsize : c.data.length = size := by
              have h' : scanSize c.line = some c.data.length := hc.size
              rw [hcline, hs] at h'
              exact (Option.some.inj h').symm
            rw [List.flatMap_cons, List.length_append, hc.bytes_length, hcline, hsize]
            omega

theorem scan_overflow {chunks : List Chunk} (h : ∀ c ∈ chunks, c.Ok loose)
    (hlen : (chunks.flatMap Chunk.bytes).length < 2 ^ 63) (hline : IsLine line)
    (hs : scanSize line = some n) (hn : n ≠ 0)
    (hover : 2 ^ 64 ≤ (chunks.flatMap Chunk.bytes).length + (line.length + 2) + n + 2) :
    chunkedBodyIsComplete (chunks.flatMap Chunk.bytes ++ line ++ crlf ++ rest) = none := by
  rw [chunkedBodyIsComplete, List.append_assoc, List.append_assoc, scanFrom_chunks h (by omega),
    ← List.append_assoc, scanFrom_line hline, hs]
  dsimp only
  rw [if_neg hn, if_pos (by omega)]

/-! ### One body at most -/

theorem trailers_inj {ts ts' : List Bytes} (h : ∀ t ∈ ts, IsLine t ∧ t ≠ [])
    (h' : ∀ t ∈ ts', IsLine t ∧ t ≠ []) {rest rest' : Bytes}
    (heq : ts.flatMap (· ++ crlf) ++ crlf ++ rest = ts'.flatMap (· ++ crlf) ++ crlf ++ rest') :
    ts = ts' ∧ rest = rest' := by
  have hempty : IsLine [] := rfl
  have hcons : ∀ (t : Bytes) (ts : List Bytes) (rest : Bytes),
      (t :: ts).flatMap (· ++ crlf) ++ crlf ++ rest =
        t ++ crlf ++ (ts.flatMap (· ++ crlf) ++ crlf ++ rest) := by
    intro t ts rest
    simp only [List.flatMap_cons, List.append_assoc]
  induction ts generalizing ts' with
  | nil =>
    cases ts' with
    | nil => exact ⟨rfl, (line_inj heq hempty hempty).2⟩
    | cons t ts' =>
      rw [hcons] at heq
      obtain ⟨hline, hne⟩ := h' t (List.mem_cons_self ..)
      exact absurd (line_inj heq hempty hline).1.symm hne
  | cons t ts ih =>
    obtain ⟨hline, hne⟩ := h t (List.mem_cons_self ..)
    rw [hcons] at heq
    cases ts' with
    | nil => exact absurd (line_inj heq hline hempty).1 hne
    | cons t' ts' =>
      rw [hcons] at heq
      obtain ⟨rfl, htail⟩ := line_inj heq hline (h' t' (List.mem_cons_self ..)).1
      obtain ⟨rfl, rfl⟩ := ih (fun t ht => h t (List.mem_cons_of_mem _ ht))
        (fun t ht => h' t (List.mem_cons_of_mem _ ht)) htail
      exact ⟨rfl, rfl⟩

/-- The lines of two bodies: where one goes on with a chunk the other does so too. -/
theorem chunks_inj {cs cs' : List Chunk} {last last' tail tail' : Bytes}
    (h : ∀ c ∈ cs, c.Ok loose) (h' : ∀ c ∈ cs', c.Ok loose) (hl : IsLine last)
    (hl' : IsLine last') (hs : scanSize last = some 0) (hs' : scanSize last' = some 0)
    (heq : cs.flatMap Chunk.bytes ++ (last ++ crlf ++ tail) =
      cs'.flatMap Chunk.bytes ++ (last' ++ crlf ++ tail')) :
    cs = cs' ∧ last = last' ∧ tail = tail' := by
  have hnot : ∀ {c : Chunk} {last : Bytes}, c.Ok loose → scanSize last = some 0 →
      c.line ≠ last := by
    rintro c last hc hs rfl
    have hsize : scanSize c.line = some c.data.length := hc.size
    have hpos := hc.data_pos
    rw [hsize, Option.some.injEq] at hs
    omega
  have hcons : ∀ (c : Chunk) (cs : List Chunk) (rest : Bytes),
      (c :: cs).flatMap Chunk.bytes ++ rest =
        c.line ++ crlf ++ (c.data ++ (c.sep ++ (cs.flatMap Chunk.bytes ++ rest))) := by
    intro c cs rest
    rw [List.flatMap_cons, List.append_assoc, c.bytes_append]
  induction cs generalizing cs' with
  | nil =>
    cases cs' with
    | nil =>
      obtain ⟨rfl, rfl⟩ := line_inj heq hl hl'
      exact ⟨rfl, rfl, rfl⟩
    | cons c cs' =>
      have hc := h' c (List.mem_cons_self ..)
      rw [hcons] at heq
      exact absurd (line_inj heq hl hc.line).1.symm (hnot hc hs)
  | cons c cs ih =>
    have hc := h c (List.mem_cons_self ..)
    rw [hcons] at heq
    cases cs' with
    | nil => exact absurd (line_inj heq hc.line hl').1 (hnot hc hs')
    | cons c' cs' =>
      have hc' := h' c' (List.mem_cons_self ..)
      rw [hcons] at heq
      obtain ⟨hline, htail⟩ := line_inj heq hc.line hc'.line
      have hsize : c.data.length = c'.data.length := by
        have h₁ : scanSize c.line = some c.data.length := hc.size
        have h₂ : scanSize c'.line = some c'.data.length := hc'.size
        rw [hline, h₂] at h₁
        exact (Option.some.inj h₁).symm
      obtain ⟨hdata, htail⟩ := List.append_inj htail hsize
      obtain ⟨hsep, htail⟩ := List.append_inj htail (hc.length.trans hc'.length.symm)
      obtain ⟨rfl, rfl, rfl⟩ := ih (fun c hc => h c (List.mem_cons_of_mem _ hc))
        (fun c hc => h' c (List.mem_cons_of_mem _ hc)) htail
      obtain ⟨l, d, e⟩ := c
      obtain ⟨l', d', e'⟩ := c'
      obtain rfl : l = l' := hline
      obtain rfl : d = d' := hdata
      obtain rfl : e = e' := hsep
      exact ⟨rfl, rfl, rfl⟩

theorem loose_unique {B B' : Body} {rest rest' : Bytes} (h : B.Ok loose) (h' : B'.Ok loose)
    (heq : B.bytes ++ rest = B'.bytes ++ rest') : B = B' := by
  obtain ⟨cs, last, ts⟩ := B
  obtain ⟨cs', last', ts'⟩ := B'
  simp only [Body.bytes, List.append_assoc] at heq
  rw [← List.append_assoc last, ← List.append_assoc last'] at heq
  obtain ⟨rfl, rfl, htail⟩ := chunks_inj h.chunks h'.chunks h.line h'.line h.size h'.size heq
  rw [← List.append_assoc, ← List.append_assoc] at htail
  obtain ⟨rfl, -⟩ := trailers_inj h.trailers h'.trailers htail
  rfl

end Conclave.Net.Chunked
