import Conclave.Crypto.Limbwise

/-! Division of big integers is Euclidean division, whatever their limbs. -/

namespace Conclave.Crypto

open Conclave.Lib

/-- What the division by one limb leaves for the limbs below `i`. -/
structure Divided (u : List UInt64) (d len i : ℕ) (q : List UInt64) (r : ℕ) : Prop where
  length : q.length = len
  rest : r < d
  value : segment u i (len - i) = segment q i (len - i) * d + r

theorem shortStep_spec {u q : List UInt64} {d len i r : ℕ} (hu : u.length = len) (hd : d ≤ radix)
    (h : Divided u d len (i + 1) q r) (hi : i < len) :
    ∃ q' r', shortStep u d i q r = some (q', r') ∧ Divided u d len i q' r' := by
  obtain ⟨x, hx, hx'⟩ := exists_limb (hu ▸ hi)
  have hxlt : x.toNat < radix := x.toNat_lt
  have hr := h.rest
  have hq : i < q.length := h.length ▸ hi
  have hlt : r * radix + x.toNat < radix * d := by
    have := lt_radix_mul hr hxlt
    rwa [Nat.mul_comm r, Nat.add_comm]
  have hlow : (low ((r * radix + x.toNat) / d)).toNat = (r * radix + x.toNat) / d := by
    rw [low_toNat, Nat.mod_eq_of_lt ((Nat.div_lt_iff_lt_mul (Nat.zero_lt_of_lt hr)).mpr hlt)]
  refine ⟨q.set i (low ((r * radix + x.toNat) / d)), (r * radix + x.toNat) % d, ?_, ?_⟩
  · rw [shortStep, hx]
    simp only [Option.bind_eq_bind, Option.bind_some]
    rw [wide_eq (hr.trans_le hd) hxlt, store_eq hq]
    rfl
  · refine ⟨by rw [List.length_set, h.length], Nat.mod_lt _ (Nat.zero_lt_of_lt hr), ?_⟩
    have hlen : len - i = len - (i + 1) + 1 := by omega
    have hdm := Nat.div_add_mod' (r * radix + x.toNat) d
    have hvalue := h.value
    rw [hlen, segment_succ', segment_succ', limbAt_set_self hq,
      segment_set_of_not_mem (.inl (Nat.lt_succ_self i)), hvalue, hlow, ← hx']
    linear_combination -hdm

theorem short_spec {u : List UInt64} {d : ℕ} (hd : 0 < d) (hd' : d ≤ radix) :
    ∃ q r, downTo u.length (fun i s => shortStep u d i s.1 s.2)
        (List.replicate u.length 0, 0) = some (q, r) ∧ value u = value q * d + r ∧ r < d := by
  obtain ⟨⟨q, r⟩, hrun, h⟩ := downTo_spec (n := u.length)
    (f := fun i s => shortStep u d i s.1 s.2) (s := (List.replicate u.length 0, 0))
    (fun i s => Divided u d u.length i s.1 s.2)
    ⟨List.length_replicate .., hd, by simp⟩ (by
      intro i hi s hs
      obtain ⟨q', r', hstep, hs'⟩ := shortStep_spec rfl hd' hs hi
      exact ⟨(q', r'), hstep, hs'⟩)
  refine ⟨q, r, hrun, ?_, h.rest⟩
  have hvalue := h.value
  have hlen := h.length
  simp only [Nat.sub_zero] at hvalue hlen
  rw [value, hvalue, value, hlen]

/-- What the digits of the quotient from `j` on leave of the dividend. -/
structure Reduced (vn un₀ : List UInt64) (m n j : ℕ) (un q : List UInt64) : Prop where
  length : un.length = m + n + 1
  qlength : q.length = m + 1
  frame : ∀ i < j, limbAt un i = limbAt un₀ i
  rest : segment un j n < segment vn 0 n
  value : segment un₀ j (m + n + 1 - j) = segment q j (m + 1 - j) * segment vn 0 n + segment un j n

theorem digitStep_reduced {vn un₀ un q : List UInt64} {m d j : ℕ} (hvn : vn.length = d + 2)
    (hv : 0 < limbAt vn (d + 1)) (h : Reduced vn un₀ m (d + 2) (j + 1) un q) (hj : j < m + 1) :
    ∃ un' q', digitStep vn (d + 2) j un q = some (un', q') ∧
      Reduced vn un₀ m (d + 2) j un' q' := by
  have hulen := h.length
  have hqlen : j < q.length := h.qlength ▸ hj
  have hwindow := segment_succ' un j (d + 2)
  have hlt : segment un j (d + 3) < radix * segment vn 0 (d + 2) :=
    hwindow ▸ lt_radix_mul h.rest (limbAt_lt un j)
  obtain ⟨un', x, hstep, hx, hlen, hframe, hrest⟩ :=
    digitStep_spec hvn hv (by omega : j + (d + 2) < un.length) hqlen hlt
  have hVpos : 0 < segment vn 0 (d + 2) := Nat.zero_lt_of_lt h.rest
  have hmod := Nat.mod_lt (segment un j (d + 3)) hVpos
  have hlow : segment un' j (d + 2) = segment un j (d + 3) % segment vn 0 (d + 2) := by
    rw [segment_eq_of_lt, hrest]
    rw [hrest]
    exact hmod.trans (segment_lt vn 0 (d + 2))
  refine ⟨un', q.set j x, hstep, hlen.trans hulen, by rw [List.length_set, h.qlength],
    fun i hi => ?_, hlow ▸ hmod, ?_⟩
  · rw [hframe i hi, h.frame i (Nat.lt_succ_of_lt hi)]
  · have h₁ : m + (d + 2) + 1 - j = m + (d + 2) + 1 - (j + 1) + 1 := by omega
    have h₂ : m + 1 - j = m + 1 - (j + 1) + 1 := by omega
    have hdm := Nat.div_add_mod' (segment un j (d + 3)) (segment vn 0 (d + 2))
    rw [← hx, ← hlow, hwindow] at hdm
    rw [h₁, h₂, segment_succ', segment_succ', h.value, limbAt_set_self hqlen,
      segment_set_of_not_mem (.inl (Nat.lt_succ_self j)), ← h.frame j (Nat.lt_succ_self j)]
    linear_combination -hdm

/-- All digits of the quotient. -/
theorem reduce_spec {vn un : List UInt64} {m d : ℕ} (hvn : vn.length = d + 2)
    (hv : 0 < limbAt vn (d + 1)) (hun : un.length = m + (d + 2) + 1)
    (htop : segment un (m + 1) (d + 2) < value vn) :
    ∃ un' q, downTo (m + 1) (fun j s => digitStep vn (d + 2) j s.1 s.2)
        (un, List.replicate (m + 1) 0) = some (un', q) ∧
      value un = value q * value vn + value (un'.take (d + 2)) ∧
      value (un'.take (d + 2)) < value vn := by
  have hV : segment vn 0 (d + 2) = value vn := by rw [value, hvn]
  obtain ⟨⟨un', q⟩, hrun, h⟩ := downTo_spec (n := m + 1)
    (f := fun j s => digitStep vn (d + 2) j s.1 s.2) (s := (un, List.replicate (m + 1) 0))
    (fun j s => Reduced vn un m (d + 2) j s.1 s.2)
    ⟨hun, List.length_replicate .., fun _ _ => rfl, by rw [hV]; exact htop, by
      simp [show m + (d + 2) + 1 - (m + 1) = d + 2 by omega]⟩ (by
      intro j hj s hs
      obtain ⟨un', q', hstep, hs'⟩ := digitStep_reduced hvn hv hs hj
      exact ⟨(un', q'), hstep, hs'⟩)
  have hulen := h.length
  have hqlen := h.qlength
  have hvalue := h.value
  have hrest := h.rest
  simp only [Nat.sub_zero] at hulen hqlen hvalue hrest
  have htake : value (un'.take (d + 2)) = segment un' 0 (d + 2) := value_take _ _ (by omega)
  refine ⟨un', q, hrun, ?_, by rw [htake, ← hV]; exact hrest⟩
  rw [htake, ← hV, value, hun, hvalue, value, hqlen]

/-- The leading zeros are what the top limb lacks to its high bit. -/
theorem leadingZeros_spec {l : UInt64} (h : l ≠ 0) :
    (leadingZeros l).toNat < 64 ∧ l.toNat * 2 ^ (leadingZeros l).toNat < radix := by
  have hl : l.toNat ≠ 0 := fun h₀ => h (UInt64.toNat_inj.mp h₀)
  have hlog : l.toNat.log2 < 64 := (Nat.log2_lt hl).mpr l.toNat_lt
  have hs : (leadingZeros l).toNat = 63 - l.toNat.log2 := by
    have hlt : 63 - l.toNat.log2 < UInt64.size := lt_of_le_of_lt (Nat.sub_le _ _) (by decide)
    rw [leadingZeros, if_neg h]
    exact UInt64.toNat_ofNat_of_lt hlt
  have hpow : 2 ^ (l.toNat.log2 + 1) * 2 ^ (63 - l.toNat.log2) = radix := by
    rw [← pow_add, show l.toNat.log2 + 1 + (63 - l.toNat.log2) = 64 by omega]
    rfl
  refine ⟨by omega, ?_⟩
  rw [hs, ← hpow]
  exact Nat.mul_lt_mul_of_pos_right Nat.lt_log2_self (Nat.two_pow_pos _)

/-- D1: the shifted divisor keeps its limbs, and the shifted dividend has one more. -/
theorem shift_spec {u v : List UInt64} {d m : ℕ} {top s : UInt64} (hu : u.length = m + (d + 2))
    (hv : v.length = d + 2) (htop : v[d + 1]? = some top) (hne : top ≠ 0) (hs : s.toNat < 64)
    (hfit : top.toNat * 2 ^ s.toNat < radix) {un : List UInt64}
    (hun : un = if (shlLimbs u s).length = u.length then shlLimbs u s ++ [0] else shlLimbs u s) :
    (shlLimbs v s).length = d + 2 ∧ 0 < limbAt (shlLimbs v s) (d + 1) ∧
      un.length = m + (d + 2) + 1 ∧ value un = value u * 2 ^ s.toNat ∧
      segment un (m + 1) (d + 2) < value (shlLimbs v s) := by
  have hvtop : limbAt v (d + 1) = top.toNat := by
    obtain ⟨x, hx, hx'⟩ := exists_limb (by omega : d + 1 < v.length)
    rw [← hx', Option.some.inj (hx.symm.trans htop)]
  have htop₀ : 0 < top.toNat := Nat.pos_of_ne_zero fun h₀ => hne (UInt64.toNat_inj.mp h₀)
  have hvvalue : value v = segment v 0 (d + 1) + top.toNat * radix ^ (d + 1) := by
    rw [value, hv, segment_succ, Nat.zero_add, hvtop]
  have hvn := value_shlLimbs (l := v) hs
  have hvnlt : value (shlLimbs v s) < radix ^ (d + 2) := by
    have hle : (top.toNat + 1) * 2 ^ s.toNat ≤ radix := by
      -- both are multiples of the power of two
      have hdvd : radix = 2 ^ (64 - s.toNat) * 2 ^ s.toNat := by
        rw [← pow_add, Nat.sub_add_cancel hs.le]
        rfl
      rw [hdvd] at hfit ⊢
      exact Nat.mul_le_mul_right _ (Nat.lt_of_mul_lt_mul_right hfit)
    have hvlow := segment_lt v 0 (d + 1)
    rw [hvn, hvvalue]
    calc (segment v 0 (d + 1) + top.toNat * radix ^ (d + 1)) * 2 ^ s.toNat
        < (radix ^ (d + 1) + top.toNat * radix ^ (d + 1)) * 2 ^ s.toNat :=
          Nat.mul_lt_mul_of_pos_right (Nat.add_lt_add_right hvlow _) (Nat.two_pow_pos _)
      _ = (top.toNat + 1) * 2 ^ s.toNat * radix ^ (d + 1) := by ring
      _ ≤ radix * radix ^ (d + 1) := Nat.mul_le_mul_right _ hle
      _ = radix ^ (d + 2) := by ring
  have hvnge : radix ^ (d + 1) * 2 ^ s.toNat ≤ value (shlLimbs v s) := by
    rw [hvn, hvvalue]
    exact Nat.mul_le_mul_right _ ((Nat.le_mul_of_pos_left _ htop₀).trans (Nat.le_add_left _ _))
  have hvnlen : (shlLimbs v s).length = d + 2 := by
    obtain h | ⟨-, hle⟩ := length_shlLimbs v s
    · rw [h, hv]
    · rw [hv] at hle
      exact absurd hle (not_le.mpr hvnlt)
  have hvntop : 0 < limbAt (shlLimbs v s) (d + 1) := by
    by_contra h₀
    have hlow := segment_lt (shlLimbs v s) 0 (d + 1)
    have hge : radix ^ (d + 1) ≤ value (shlLimbs v s) :=
      (Nat.le_mul_of_pos_right _ (Nat.two_pow_pos _)).trans hvnge
    rw [value, hvnlen, segment_succ, Nat.zero_add, Nat.eq_zero_of_not_pos h₀] at hge
    omega
  have hunlen : un.length = m + (d + 2) + 1 := by
    rw [hun]
    obtain h | ⟨h, -⟩ := length_shlLimbs u s
    · rw [if_pos h, List.length_append, h, hu]
      rfl
    · rw [if_neg (by omega), h, hu]
  have hunvalue : value un = value u * 2 ^ s.toNat := by
    rw [← value_shlLimbs hs, hun]
    split_ifs
    · simp [value_append, value_cons]
    · rfl
  refine ⟨hvnlen, hvntop, hunlen, hunvalue, ?_⟩
  have hult : value un < radix ^ (d + 1) * 2 ^ s.toNat * radix ^ (m + 1) := by
    rw [hunvalue]
    calc value u * 2 ^ s.toNat < radix ^ (m + (d + 2)) * 2 ^ s.toNat :=
          Nat.mul_lt_mul_of_pos_right (hu ▸ value_lt u) (Nat.two_pow_pos _)
      _ = radix ^ (d + 1) * 2 ^ s.toNat * radix ^ (m + 1) := by ring
  have hsplit : value un = segment un 0 (m + 1) + segment un (m + 1) (d + 2) * radix ^ (m + 1) := by
    rw [value, hunlen, show m + (d + 2) + 1 = m + 1 + (d + 2) by omega, segment_add, Nat.zero_add]
  have hlt : segment un (m + 1) (d + 2) * radix ^ (m + 1) <
      radix ^ (d + 1) * 2 ^ s.toNat * radix ^ (m + 1) := by omega
  exact (Nat.lt_of_mul_lt_mul_right hlt).trans_le hvnge

/-- A remainder of shifted numbers, shifted back. -/
theorem unshift {u v q r p : ℕ} (hp : 0 < p) (h : u * p = q * (v * p) + r) (hr : r < v * p) :
    u = q * v + r / p ∧ r / p < v := by
  have hdvd : p ∣ r := (Nat.dvd_add_right (Dvd.intro_left (q * v) (by ring))).mp
    (h ▸ Dvd.intro_left u rfl)
  obtain ⟨k, rfl⟩ := hdvd
  rw [Nat.mul_div_cancel_left k hp]
  refine ⟨Nat.eq_of_mul_eq_mul_right hp ?_, Nat.lt_of_mul_lt_mul_left (a := p) ?_⟩
  · linear_combination h
  · rwa [Nat.mul_comm v] at hr

theorem divmod_of_lt {u v : BigUint} (h : u.toNat < v.toNat) :
    divmod u v = some (BigUint.zero, u) := by
  have hv : v.limbs.length ≠ 0 := by
    intro h₀
    rw [BigUint.toNat_eq_zero.mpr (List.eq_nil_of_length_eq_zero h₀)] at h
    exact absurd h (Nat.not_lt_zero _)
  simp only [divmod, Option.bind_eq_bind]
  rw [elim_rposition v.normal, if_neg hv, bind_of_some (BigUint.cmp_spec u v),
    compare_lt_iff_lt.mpr h, if_pos rfl]

theorem divmod_short {u v : BigUint} (hle : v.toNat ≤ u.toNat) (hv : v.limbs.length = 1) :
    ∃ q r, divmod u v = some (q, r) ∧ u.toNat = q.toNat * v.toNat + r.toNat ∧
      r.toNat < v.toNat := by
  obtain ⟨d, hd⟩ := List.length_eq_one_iff.mp hv
  have hvd : v.toNat = d.toNat := by
    rw [BigUint.toNat, hd, value_cons, value_nil, Nat.mul_zero, Nat.add_zero]
  have hpos : 0 < d.toNat := by
    refine Nat.pos_of_ne_zero fun h₀ => v.normal ?_
    rw [hd, UInt64.toNat_inj.mp (h₀.trans UInt64.toNat_zero.symm)]
    rfl
  have hcmp : ¬ compare u.toNat v.toNat = .lt := fun h => absurd (compare_lt_iff_lt.mp h) (by omega)
  have hlen : ¬ u.limbs.length < 1 := by
    intro h
    have hlt := u.toNat_lt
    rw [Nat.lt_one_iff.mp h, pow_zero] at hlt
    omega
  obtain ⟨q, r, hrun, hvalue, hrest⟩ := short_spec (u := u.limbs) hpos d.toNat_lt.le
  have hlow : value [low r] = r := by
    have hlt : r < radix := hrest.trans d.toNat_lt
    rw [value_cons, value_nil, low_toNat, Nat.mod_eq_of_lt hlt, Nat.mul_zero, Nat.add_zero]
  refine ⟨BigUint.ofLimbs q, BigUint.ofLimbs [low r], ?_, ?_, ?_⟩
  · have hhead : v.limbs[0]? = some d := by rw [hd]; rfl
    simp only [divmod, Option.bind_eq_bind]
    rw [elim_rposition v.normal, elim_rposition u.normal, hv, if_neg one_ne_zero,
      bind_of_some (BigUint.cmp_spec u v), if_neg hcmp, if_pos rfl, bind_of_some hhead,
      bind_of_some hrun]
  · rw [BigUint.toNat_ofLimbs, BigUint.toNat_ofLimbs, hlow, hvd]
    exact hvalue
  · rw [BigUint.toNat_ofLimbs, hlow, hvd]
    exact hrest

theorem divmod_long {u v : BigUint} {d : ℕ} (hle : v.toNat ≤ u.toNat)
    (hv : v.limbs.length = d + 2) :
    ∃ q r, divmod u v = some (q, r) ∧ u.toNat = q.toNat * v.toNat + r.toNat ∧
      r.toNat < v.toNat := by
  have hcmp : ¬ compare u.toNat v.toNat = .lt := fun h => absurd (compare_lt_iff_lt.mp h) (by omega)
  have hlen : ¬ u.limbs.length < d + 2 := fun h =>
    absurd (BigUint.lt_of_length_lt (hv.symm ▸ h)) (by omega)
  obtain ⟨m, hm⟩ := Nat.exists_eq_add_of_le' (not_lt.mp hlen)
  obtain ⟨top, htop, -⟩ := exists_limb (by omega : d + 1 < v.limbs.length)
  have hne : top ≠ 0 := by
    rintro rfl
    exact v.normal (by rw [List.getLast?_eq_getElem?, hv]; exact htop)
  obtain ⟨hs, hfit⟩ := leadingZeros_spec hne
  obtain ⟨hvn, hvtop, hun, hunvalue, htoplt⟩ := shift_spec hm hv htop hne hs hfit rfl
  obtain ⟨un', q, hrun, hvalue, hrest⟩ := reduce_spec hvn hvtop hun htoplt
  rw [hunvalue, value_shlLimbs hs] at hvalue
  rw [value_shlLimbs hs] at hrest
  obtain ⟨heq, hlt⟩ := unshift (Nat.two_pow_pos _) hvalue hrest
  have hr : (BigUint.ofLimbs (shrLimbs (un'.take (d + 2)) (leadingZeros top))).toNat =
      value (un'.take (d + 2)) / 2 ^ (leadingZeros top).toNat := by
    rw [BigUint.toNat_ofLimbs, value_shrLimbs hs]
  refine ⟨BigUint.ofLimbs q, BigUint.ofLimbs (shrLimbs (un'.take (d + 2)) (leadingZeros top)),
    ?_, ?_, hr ▸ hlt⟩
  · have h₁ : d + 2 - 1 = d + 1 := rfl
    have hu₀ : u.limbs.take (m + (d + 2)) = u.limbs := List.take_of_length_le hm.le
    have hv₀ : v.limbs.take (d + 2) = v.limbs := List.take_of_length_le hv.le
    simp only [divmod, Option.bind_eq_bind]
    rw [elim_rposition v.normal, elim_rposition u.normal, hv, hm, if_neg (Nat.succ_ne_zero _),
      bind_of_some (BigUint.cmp_spec u v), if_neg hcmp, if_neg (by omega), if_neg (by omega),
      h₁, bind_of_some htop, Nat.add_sub_cancel, hu₀, hv₀]
    rw [hm] at hun hrun
    rw [if_neg (not_not.mpr hun), bind_of_some hrun]
  · rw [BigUint.toNat_ofLimbs, hr]
    exact heq

theorem divmod_spec (u v : BigUint) (hv : v.toNat ≠ 0) :
    ∃ q r, divmod u v = some (q, r) ∧ u.toNat = q.toNat * v.toNat + r.toNat ∧
      r.toNat < v.toNat := by
  obtain hlt | hle := Nat.lt_or_ge u.toNat v.toNat
  · exact ⟨BigUint.zero, u, divmod_of_lt hlt, by simp, hlt⟩
  · match hn : v.limbs.length with
    | 0 => exact absurd (BigUint.toNat_eq_zero.mpr (List.eq_nil_of_length_eq_zero hn)) hv
    | 1 => exact divmod_short hle hn
    | d + 2 => exact divmod_long hle hn

/-- Division by a number other than zero gives the quotient and the remainder, and none of
its steps overflows or leaves an array. -/
theorem euclidean_division (u v : BigUint) (hv : v.toNat ≠ 0) :
    ∃ q r, divmod u v = some (q, r) ∧ u.toNat = q.toNat * v.toNat + r.toNat ∧
      r.toNat < v.toNat :=
  divmod_spec u v hv

/-- A dividend whose first trial digit is one too large, and is added back. -/
theorem euclidean_division_added_back :
    (BigUint.ofLimbs [1, 0, 2 ^ 63]).toNat ≠ 0 ∧
      ∃ q r, divmod (BigUint.ofLimbs [0, 0, 2 ^ 63, 2 ^ 63 - 1]) (BigUint.ofLimbs [1, 0, 2 ^ 63]) =
        some (q, r) ∧
        (BigUint.ofLimbs [0, 0, 2 ^ 63, 2 ^ 63 - 1]).toNat =
          q.toNat * (BigUint.ofLimbs [1, 0, 2 ^ 63]).toNat + r.toNat ∧
        r.toNat < (BigUint.ofLimbs [1, 0, 2 ^ 63]).toNat :=
  have h : (BigUint.ofLimbs [1, 0, 2 ^ 63]).toNat ≠ 0 := by simp [value_cons]
  ⟨h, euclidean_division _ _ h⟩

end Conclave.Crypto
