import Conclave.Lib.Bytes
import Conclave.Lib.Text

/-! Decoders that read a queue of bytes one by one, and may put bytes back in front of it. -/

namespace Conclave.Lib

variable {σ τ : Type*}

/-- What reading a byte comes to. -/
structure Reading (σ : Type*) where
  out : Text
  state : σ
  restored : Bytes := []

/-- A decoder never holds more bytes than it has read, and drops one when it puts some back. -/
structure Decoder (σ : Type*) where
  start : σ
  next : σ → UInt8 → Reading σ
  atEnd : σ → Text
  held : σ → ℕ
  shrinks : ∀ s b, 4 * held (next s b).state + 5 * (next s b).restored.length < 4 * held s + 5

namespace Decoder

def run (d : Decoder σ) : σ → Bytes → Text
  | s, [] => d.atEnd s
  | s, b :: bs =>
    (d.next s b).out ++ d.run (d.next s b).state ((d.next s b).restored ++ bs)
termination_by s bytes => 4 * d.held s + 5 * bytes.length
decreasing_by
  have h := d.shrinks s b
  simp only [List.length_append, List.length_cons]
  omega

def decode (d : Decoder σ) (bytes : Bytes) : Text := d.run d.start bytes

/-- Every byte is read in a state that the condition allows it in. -/
def Meets (d : Decoder σ) (ok : σ → UInt8 → Prop) : σ → Bytes → Prop
  | _, [] => True
  | s, b :: bs => ok s b ∧ d.Meets ok (d.next s b).state ((d.next s b).restored ++ bs)
termination_by s bytes => 4 * d.held s + 5 * bytes.length
decreasing_by
  have h := d.shrinks s b
  simp only [List.length_append, List.length_cons]
  omega

variable {d : Decoder σ} {e : Decoder τ} {s : σ} {t : τ}

theorem run_nil (d : Decoder σ) (s : σ) : d.run s [] = d.atEnd s := by rw [run]

theorem run_cons (d : Decoder σ) (s : σ) (b : UInt8) (bs : Bytes) :
    d.run s (b :: bs) =
      (d.next s b).out ++ d.run (d.next s b).state ((d.next s b).restored ++ bs) := by rw [run]

theorem meets_cons {ok : σ → UInt8 → Prop} {b : UInt8} {bs : Bytes} :
    d.Meets ok s (b :: bs) ↔
      ok s b ∧ d.Meets ok (d.next s b).state ((d.next s b).restored ++ bs) := by rw [Meets]

/-- The order in which the queue of a decoder gets shorter. -/
theorem induction_on {motive : σ → Bytes → Prop} (d : Decoder σ) (nil : ∀ s, motive s [])
    (cons : ∀ s b bs, motive (d.next s b).state ((d.next s b).restored ++ bs) →
      motive s (b :: bs)) (s : σ) (bytes : Bytes) : motive s bytes := by
  induction s, bytes using run.induct d with
  | case1 s => exact nil s
  | case2 s b bs ih => exact cons s b bs ih

/-- Readings with the same text and the same bytes put back, in states that correspond. -/
structure Matches (R : σ → τ → Prop) (r : Reading σ) (r' : Reading τ) : Prop where
  out : r.out = r'.out
  restored : r.restored = r'.restored
  state : R r.state r'.state

/-- Decoders that do the same at every byte that the condition allows. -/
structure Simulates (d : Decoder σ) (e : Decoder τ) (R : σ → τ → Prop) (ok : σ → UInt8 → Prop) :
    Prop where
  start : R d.start e.start
  atEnd : ∀ s t, R s t → d.atEnd s = e.atEnd t
  next : ∀ s t b, R s t → ok s b → Matches R (d.next s b) (e.next t b)

variable {R : σ → τ → Prop} {ok : σ → UInt8 → Prop} {bytes : Bytes}

theorem Simulates.run_eq (h : Simulates d e R ok) (hst : R s t) (hmeets : d.Meets ok s bytes) :
    d.run s bytes = e.run t bytes := by
  induction s, bytes using induction_on d generalizing t with
  | nil s => rw [run_nil, run_nil, h.atEnd s t hst]
  | cons s b bs ih =>
    obtain ⟨hok, hrest⟩ := meets_cons.mp hmeets
    obtain ⟨hout, hrestored, hstate⟩ := h.next s t b hst hok
    rw [run_cons, run_cons, hout, ← hrestored, ih hstate hrest]

/-- When the texts differ from the first byte on that is not allowed, the condition is exact. -/
theorem Simulates.meets_of_run_eq (h : Simulates d e R ok)
    (hbad : ∀ s t b, R s t → ¬ ok s b → ∀ text text',
      (d.next s b).out ++ text ≠ (e.next t b).out ++ text')
    (hst : R s t) (heq : d.run s bytes = e.run t bytes) : d.Meets ok s bytes := by
  induction s, bytes using induction_on d generalizing t with
  | nil s => rw [Meets]; trivial
  | cons s b bs ih =>
    rw [run_cons, run_cons] at heq
    have hok : ok s b := by
      by_contra hnot
      exact hbad s t b hst hnot _ _ heq
    obtain ⟨hout, hrestored, hstate⟩ := h.next s t b hst hok
    rw [hout, ← hrestored] at heq
    exact meets_cons.mpr ⟨hok, ih hstate (List.append_cancel_left heq)⟩

theorem meets_of_forall (h : ∀ s b, ok s b) (s : σ) (bytes : Bytes) : d.Meets ok s bytes := by
  induction s, bytes using induction_on d with
  | nil s => rw [Meets]; trivial
  | cons s b bs ih => exact meets_cons.mpr ⟨h s b, ih⟩

end Decoder

end Conclave.Lib
