import PtoCodec.Machine

namespace PtoCodec

def msbAux : Nat → Nat → Nat
  | 0, _ => 0
  | fuel + 1, n => if 2 ≤ n then msbAux fuel (n / 2) + 1 else 0

def msb (n : Nat) : Nat := msbAux n n

theorem msbAux_spec (fuel n : Nat) (h0 : 0 < n) (h : n ≤ fuel) :
    2 ^ msbAux fuel n ≤ n ∧ n < 2 ^ (msbAux fuel n + 1) := by
  induction fuel generalizing n with
  | zero => omega
  | succ fuel ih =>
    rw [msbAux]
    split
    · have := ih (n / 2) (by omega) (by omega)
      rw [Nat.pow_succ, Nat.pow_succ]
      omega
    · simp only [Nat.pow_zero, Nat.zero_add, Nat.pow_one]
      omega

theorem msb_spec {n : Nat} (h : 0 < n) : 2 ^ msb n ≤ n ∧ n < 2 ^ (msb n + 1) :=
  msbAux_spec n n h le_rfl

theorem msb_eq {n k : Nat} (h1 : 2 ^ k ≤ n) (h2 : n < 2 ^ (k + 1)) : msb n = k := by
  have hs := msb_spec (lt_of_lt_of_le (Nat.two_pow_pos k) h1)
  rcases Nat.lt_trichotomy (msb n) k with hlt | heq | hgt
  · have := Nat.pow_le_pow_right (by norm_num : 0 < 2) (show msb n + 1 ≤ k by omega)
    omega
  · exact heq
  · have := Nat.pow_le_pow_right (by norm_num : 0 < 2) (show k + 1 ≤ msb n by omega)
    omega

theorem msb_mul_pow {m : Nat} (k : Nat) (hm : 0 < m) : msb (m * 2 ^ k) = msb m + k := by
  have hs := msb_spec hm
  apply msb_eq
  · rw [Nat.pow_add]
    exact Nat.mul_le_mul_right _ hs.1
  · rw [show msb m + k + 1 = msb m + 1 + k by omega, Nat.pow_add]
    exact Nat.mul_lt_mul_of_pos_right hs.2 (Nat.two_pow_pos k)

def shiftRound (m s : Nat) : Nat :=
  if s = 0 then m
  else if 2 ^ (s - 1) < m % 2 ^ s ∨ (m % 2 ^ s = 2 ^ (s - 1) ∧ m / 2 ^ s % 2 = 1) then m / 2 ^ s + 1
  else m / 2 ^ s

theorem shiftRound_exact (m s : Nat) : shiftRound (m * 2 ^ s) s = m := by
  have hp := Nat.two_pow_pos (s - 1)
  unfold shiftRound
  split
  · simp_all
  · rw [Nat.mul_mod_left, Nat.mul_div_cancel _ (Nat.two_pow_pos s), if_neg (by omega)]

theorem shiftRound_scale (m k : Nat) {s : Nat} (hs : s ≠ 0) :
    shiftRound (m * 2 ^ k) (s + k) = shiftRound m s := by
  have hk := Nat.two_pow_pos k
  have hdiv : m * 2 ^ k / 2 ^ (s + k) = m / 2 ^ s := by
    rw [Nat.pow_add]; exact Nat.mul_div_mul_right _ _ hk
  have hmod : m * 2 ^ k % 2 ^ (s + k) = m % 2 ^ s * 2 ^ k := by
    rw [Nat.pow_add]; exact Nat.mul_mod_mul_right _ _ _
  have hhalf : 2 ^ (s + k - 1) = 2 ^ (s - 1) * 2 ^ k := by
    rw [← Nat.pow_add]; congr 1; omega
  simp only [shiftRound, hs, show s + k ≠ 0 by omega, if_false, hdiv, hmod, hhalf,
    Nat.mul_lt_mul_right hk, Nat.mul_right_cancel_iff hk]

structure Format where
  frac : Nat
  emax : Nat
  qmin : Int

def binary32 : Format := ⟨23, 255, -149⟩

def binary64 : Format := ⟨52, 2047, -1074⟩

namespace Format

def inf (fmt : Format) : Nat := fmt.emax * 2 ^ fmt.frac

def pack (fmt : Format) (m : Nat) (q : Int) : Nat := (q - fmt.qmin).toNat * 2 ^ fmt.frac + m

def unpack (fmt : Format) (b : Nat) : Nat × Int :=
  if b / 2 ^ fmt.frac = 0 then (b, fmt.qmin)
  else (b % 2 ^ fmt.frac + 2 ^ fmt.frac, fmt.qmin + (b / 2 ^ fmt.frac : Nat) - 1)

def round (fmt : Format) (m : Nat) (q : Int) : Nat :=
  if m = 0 then 0
  else
    let t := max (msb m + q - fmt.frac) fmt.qmin
    min (fmt.pack (if t ≤ q then m * 2 ^ (q - t).toNat else shiftRound m (t - q).toNat) t) fmt.inf

def Finite (fmt : Format) (m : Nat) (q : Int) : Prop :=
  m < 2 ^ (fmt.frac + 1) ∧ fmt.qmin ≤ q ∧ (2 ^ fmt.frac ≤ m ∨ q = fmt.qmin) ∧ fmt.pack m q < fmt.inf

variable (fmt : Format)

theorem unpack_pack {m : Nat} {q : Int} (h : fmt.Finite m q) : fmt.unpack (fmt.pack m q) = (m, q) := by
  obtain ⟨hm, hq, hn, -⟩ := h
  have hp := Nat.two_pow_pos fmt.frac
  rw [Nat.pow_succ] at hm
  simp only [unpack, pack]
  by_cases hs : 2 ^ fmt.frac ≤ m
  · have hd : ((q - fmt.qmin).toNat * 2 ^ fmt.frac + m) / 2 ^ fmt.frac = (q - fmt.qmin).toNat + 1 := by
      rw [Nat.add_comm, Nat.add_mul_div_right _ _ hp, Nat.div_eq_of_lt_le (k := 1) (by omega) (by omega)]
      omega
    have hr : ((q - fmt.qmin).toNat * 2 ^ fmt.frac + m) % 2 ^ fmt.frac = m - 2 ^ fmt.frac := by
      rw [Nat.add_comm, Nat.add_mul_mod_self_right, Nat.mod_eq_sub_mod hs, Nat.mod_eq_of_lt (by omega)]
    simp only [hd, hr, Nat.add_eq_zero, one_ne_zero, and_false, if_false, Prod.mk.injEq]
    omega
  · have hq' : q = fmt.qmin := by omega
    subst hq'
    simp [Nat.div_eq_of_lt (Nat.lt_of_not_le hs)]

theorem pack_unpack (b : Nat) : fmt.pack (fmt.unpack b).1 (fmt.unpack b).2 = b := by
  have hb := Nat.div_add_mod b (2 ^ fmt.frac)
  simp only [unpack, pack]
  generalize b / 2 ^ fmt.frac = e at *
  split
  · subst e; simp_all
  · obtain ⟨e, rfl⟩ : ∃ e', e = e' + 1 := ⟨e - 1, by omega⟩
    rw [show (fmt.qmin + ((e + 1 : Nat) : Int) - 1 - fmt.qmin).toNat = e by omega, Nat.mul_comm e]
    rw [Nat.mul_add, Nat.mul_one] at hb
    omega

theorem finite_unpack {b : Nat} (h : b < fmt.inf) : fmt.Finite (fmt.unpack b).1 (fmt.unpack b).2 := by
  have hp := Nat.two_pow_pos fmt.frac
  have hr := Nat.mod_lt b hp
  unfold Finite
  rw [pack_unpack, Nat.pow_succ]
  simp only [unpack]
  generalize he : b / 2 ^ fmt.frac = e
  split
  next hz =>
    have := (Nat.div_eq_zero_iff hp).mp (he.trans hz)
    exact ⟨by simp only; omega, le_rfl, Or.inr rfl, h⟩
  · exact ⟨by omega, by omega, Or.inl (by omega), h⟩

theorem round_pack {m : Nat} {q : Int} (h : fmt.Finite m q) : fmt.round m q = fmt.pack m q := by
  obtain ⟨hm, hq, hn, hi⟩ := h
  unfold round
  split
  · subst m
    have : q = fmt.qmin := by have := Nat.two_pow_pos fmt.frac; omega
    simp [pack, this]
  · have hs := msb_spec (Nat.pos_of_ne_zero ‹m ≠ 0›)
    have hle : msb m ≤ fmt.frac := by
      by_contra hc
      have := Nat.pow_le_pow_right (by norm_num : 0 < 2) (Nat.succ_le_of_lt (Nat.lt_of_not_le hc))
      omega
    have ht : max ((msb m : Int) + q - fmt.frac) fmt.qmin = q := by
      rcases hn with hn | hn
      · have : msb m = fmt.frac := msb_eq hn hm
        omega
      · omega
    simp only [ht, le_refl, if_true, sub_self, Int.toNat_zero, Nat.pow_zero, Nat.mul_one]
    exact Nat.min_eq_left hi.le

theorem round_scale {m : Nat} (k : Nat) (q : Int) (hm : 0 < m) :
    fmt.round (m * 2 ^ k) (q - k) = fmt.round m q := by
  unfold round
  dsimp only
  rw [if_neg (Nat.mul_ne_zero hm.ne' (Nat.two_pow_pos k).ne'), if_neg hm.ne', msb_mul_pow k hm]
  rw [show ((msb m + k : Nat) : Int) + (q - k) - fmt.frac = msb m + q - fmt.frac by push_cast; ring]
  generalize max ((msb m : Int) + q - fmt.frac) fmt.qmin = t
  by_cases h1 : t ≤ q - k
  · rw [if_pos h1, if_pos (by omega), Nat.mul_assoc, ← Nat.pow_add,
      show k + (q - k - t).toNat = (q - t).toNat by omega]
  · rw [if_neg h1]
    by_cases h2 : t ≤ q
    · rw [if_pos h2, show m * 2 ^ k = m * 2 ^ (q - t).toNat * 2 ^ (t - (q - k)).toNat by
        rw [Nat.mul_assoc, ← Nat.pow_add]; congr 2; omega, shiftRound_exact]
    · rw [if_neg h2, show (t - (q - k)).toNat = (t - q).toNat + k by omega,
        shiftRound_scale _ _ (by omega)]

end Format

theorem finite32_bounds {m : Nat} {q : Int} (h : binary32.Finite m q) :
    m < 2 ^ 24 ∧ -149 ≤ q ∧ q ≤ 105 := by
  obtain ⟨hm, hq, -, hi⟩ := h
  simp only [binary32, Format.pack, Format.inf] at hm hq hi
  omega

theorem round64_of_finite32 {m : Nat} {q : Int} (h : binary32.Finite m q) (hm : 0 < m) :
    binary64.Finite (m * 2 ^ (52 - msb m)) (q - (52 - msb m : Nat)) ∧
      binary64.round m q = binary64.pack (m * 2 ^ (52 - msb m)) (q - (52 - msb m : Nat)) := by
  obtain ⟨hm24, hq1, hq2⟩ := finite32_bounds h
  have hs := msb_spec hm
  have hle : msb m ≤ 23 := by
    by_contra hc
    have := Nat.pow_le_pow_right (by norm_num : 0 < 2) (show 24 ≤ msb m by omega)
    omega
  have hs' := msb_spec (Nat.mul_pos hm (Nat.two_pow_pos (52 - msb m)))
  rw [msb_mul_pow _ hm, show msb m + (52 - msb m) = 52 by omega] at hs'
  have hfin : binary64.Finite (m * 2 ^ (52 - msb m)) (q - (52 - msb m : Nat)) := by
    simp only [Format.Finite, binary64, Format.pack, Format.inf]
    omega
  exact ⟨hfin, by rw [← binary64.round_scale (52 - msb m) q hm, binary64.round_pack hfin]⟩

theorem narrow_round64 {m : Nat} {q : Int} (h : binary32.Finite m q) :
    binary64.round m q < binary64.inf ∧
      binary32.round (binary64.unpack (binary64.round m q)).1 (binary64.unpack (binary64.round m q)).2 =
        binary32.pack m q := by
  rcases Nat.eq_zero_or_pos m with rfl | hm
  · have hq : q = binary32.qmin := by
      obtain ⟨-, -, hn, -⟩ := h
      simpa [binary32] using hn
    simp [Format.round, Format.unpack, Format.pack, hq, binary64, binary32, Format.inf]
  · obtain ⟨hfin, hr⟩ := round64_of_finite32 h hm
    rw [hr, binary64.unpack_pack hfin, binary32.round_scale _ _ hm, binary32.round_pack h]
    exact ⟨hfin.2.2.2, rfl⟩

def quiet (x : Nat) : Nat := if x < 2 ^ 22 then x + 2 ^ 22 else x

theorem quiet_bounds (x : Nat) : 2 ^ 22 ≤ quiet x ∧ (x < 2 ^ 23 → quiet x < 2 ^ 23) := by
  unfold quiet; split <;> omega

theorem quiet_quiet (x : Nat) : quiet (quiet x) = quiet x := if_neg (by have := (quiet_bounds x).1; omega)

def widenMag (b : Nat) : Nat :=
  if b < binary32.inf then binary64.round (binary32.unpack b).1 (binary32.unpack b).2
  else if b = binary32.inf then binary64.inf
  else binary64.inf + quiet (b % 2 ^ 23) * 2 ^ 29

def narrowMag (b : Nat) : Nat :=
  if b < binary64.inf then binary32.round (binary64.unpack b).1 (binary64.unpack b).2
  else if b = binary64.inf then binary32.inf
  else binary32.inf + quiet (b % 2 ^ 52 / 2 ^ 29)

def widen (f : BitVec 32) : BitVec 64 :=
  .ofNat 64 (f.toNat / 2 ^ 31 * 2 ^ 63 + widenMag (f.toNat % 2 ^ 31))

def narrow (d : BitVec 64) : BitVec 32 :=
  .ofNat 32 (d.toNat / 2 ^ 63 * 2 ^ 31 + narrowMag (d.toNat % 2 ^ 63))

theorem Format.round_le_inf (fmt : Format) (m : Nat) (q : Int) : fmt.round m q ≤ fmt.inf := by
  unfold Format.round; split
  · exact Nat.zero_le _
  · exact Nat.min_le_right _ _

theorem widenMag_lt {b : Nat} (hb : b < 2 ^ 31) : widenMag b < 2 ^ 63 := by
  have hq := quiet_bounds (b % 2 ^ 23)
  have hr := Nat.mod_lt b (show 0 < 2 ^ 23 by norm_num)
  have := binary64.round_le_inf (binary32.unpack b).1 (binary32.unpack b).2
  simp only [widenMag, binary64, binary32, Format.inf] at this ⊢
  split_ifs <;> omega

theorem narrowMag_lt {b : Nat} (hb : b < 2 ^ 63) : narrowMag b < 2 ^ 31 := by
  have hq := quiet_bounds (b % 2 ^ 52 / 2 ^ 29)
  have := binary32.round_le_inf (binary64.unpack b).1 (binary64.unpack b).2
  simp only [narrowMag, binary64, binary32, Format.inf] at this ⊢
  split_ifs <;> omega

theorem widen_sign_mag (f : BitVec 32) :
    (widen f).toNat / 2 ^ 63 = f.toNat / 2 ^ 31 ∧ (widen f).toNat % 2 ^ 63 = widenMag (f.toNat % 2 ^ 31) := by
  have := f.isLt
  have := widenMag_lt (Nat.mod_lt f.toNat (show 0 < 2 ^ 31 by norm_num))
  rw [widen, BitVec.toNat_ofNat, Nat.mod_eq_of_lt (by omega)]
  omega

theorem narrow_sign_mag (d : BitVec 64) :
    (narrow d).toNat / 2 ^ 31 = d.toNat / 2 ^ 63 ∧ (narrow d).toNat % 2 ^ 31 = narrowMag (d.toNat % 2 ^ 63) := by
  have := d.isLt
  have := narrowMag_lt (Nat.mod_lt d.toNat (show 0 < 2 ^ 63 by norm_num))
  rw [narrow, BitVec.toNat_ofNat, Nat.mod_eq_of_lt (by omega)]
  omega

theorem narrowMag_widenMag {b : Nat} (hb : b < 2 ^ 31)
    (hs : ¬ (binary32.inf < b ∧ b % 2 ^ 23 < 2 ^ 22)) : narrowMag (widenMag b) = b := by
  have hinf : binary64.inf = 2047 * 2 ^ 52 := rfl
  have hinf32 : binary32.inf = 255 * 2 ^ 23 := rfl
  by_cases hf : b < binary32.inf
  · obtain ⟨hR, hround⟩ := narrow_round64 (binary32.finite_unpack hf)
    rw [widenMag, if_pos hf, narrowMag, if_pos hR, hround, binary32.pack_unpack]
  · by_cases he : b = binary32.inf
    · rw [widenMag, if_neg hf, if_pos he, narrowMag, if_neg (lt_irrefl _), if_pos rfl, he]
    · have hq : quiet (b % 2 ^ 23) = b % 2 ^ 23 := if_neg (by omega)
      have hx : (binary64.inf + b % 2 ^ 23 * 2 ^ 29) % 2 ^ 52 / 2 ^ 29 = b % 2 ^ 23 := by
        rw [hinf]; omega
      rw [widenMag, if_neg hf, if_neg he, hq, narrowMag, if_neg (by omega), if_neg (by omega), hx, hq]
      omega

def Signaling (f : BitVec 32) : Prop :=
  binary32.inf < f.toNat % 2 ^ 31 ∧ f.toNat % 2 ^ 31 % 2 ^ 23 < 2 ^ 22

theorem narrow_widen {f : BitVec 32} (hs : ¬ Signaling f) : narrow (widen f) = f := by
  obtain ⟨hw1, hw2⟩ := widen_sign_mag f
  obtain ⟨hn1, hn2⟩ := narrow_sign_mag (widen f)
  rw [hw2, narrowMag_widenMag (Nat.mod_lt _ (by norm_num)) hs] at hn2
  apply BitVec.eq_of_toNat_eq
  omega

theorem not_signaling_narrow (d : BitVec 64) : ¬ Signaling (narrow d) := by
  have hq := quiet_bounds (d.toNat % 2 ^ 63 % 2 ^ 52 / 2 ^ 29)
  have := binary32.round_le_inf (binary64.unpack (d.toNat % 2 ^ 63)).1 (binary64.unpack (d.toNat % 2 ^ 63)).2
  unfold Signaling
  rw [(narrow_sign_mag d).2]
  simp only [narrowMag, binary32, binary64, Format.inf] at this ⊢
  split_ifs <;> omega

theorem narrow_widen_narrow (d : BitVec 64) : narrow (widen (narrow d)) = narrow d :=
  narrow_widen (not_signaling_narrow d)

theorem widenMag_narrowMag_widenMag {b : Nat} (hb : b < 2 ^ 31) :
    widenMag (narrowMag (widenMag b)) = widenMag b := by
  by_cases hs : binary32.inf < b ∧ b % 2 ^ 23 < 2 ^ 22
  · have hinf : binary64.inf = 2047 * 2 ^ 52 := rfl
    have hinf32 : binary32.inf = 255 * 2 ^ 23 := rfl
    have hq := quiet_bounds (b % 2 ^ 23)
    have hx : (binary64.inf + quiet (b % 2 ^ 23) * 2 ^ 29) % 2 ^ 52 / 2 ^ 29 = quiet (b % 2 ^ 23) := by
      rw [hinf]; have := hq.2 (Nat.mod_lt _ (by norm_num)); omega
    have hw : widenMag b = binary64.inf + quiet (b % 2 ^ 23) * 2 ^ 29 := by
      rw [widenMag, if_neg (by omega), if_neg (by omega)]
    have hm : (binary32.inf + quiet (b % 2 ^ 23)) % 2 ^ 23 = quiet (b % 2 ^ 23) := by
      rw [hinf32]; have := hq.2 (Nat.mod_lt _ (by norm_num)); omega
    rw [hw, narrowMag, if_neg (by omega), if_neg (by omega), hx, quiet_quiet, widenMag,
      if_neg (by omega), if_neg (by omega), hm, quiet_quiet]
  · rw [narrowMag_widenMag hb hs]

theorem widen_narrow_widen (f : BitVec 32) : widen (narrow (widen f)) = widen f := by
  obtain ⟨hw1, hw2⟩ := widen_sign_mag f
  obtain ⟨hn1, hn2⟩ := narrow_sign_mag (widen f)
  obtain ⟨hv1, hv2⟩ := widen_sign_mag (narrow (widen f))
  rw [hn2, hw2, widenMag_narrowMag_widenMag (Nat.mod_lt _ (by norm_num)), ← hw2] at hv2
  apply BitVec.eq_of_toNat_eq
  omega

def ofInt (i : Int) : BitVec 64 :=
  BitVec.ofNat 64 ((if i < 0 then 2 ^ 63 else 0) + binary64.round i.natAbs 0)

def toInteger? (d : BitVec 64) : Option Int :=
  let b := d.toNat % 2 ^ 63
  if b < binary64.inf then
    let m := (binary64.unpack b).1
    let q := (binary64.unpack b).2
    let n : Option Nat :=
      if 0 ≤ q then some (m * 2 ^ q.toNat)
      else if m % 2 ^ (-q).toNat = 0 then some (m / 2 ^ (-q).toNat) else none
    n.bind fun n =>
      let v : Int := if d.toNat / 2 ^ 63 = 1 then -n else n
      if -2 ^ 63 ≤ v ∧ v < 2 ^ 63 then some v else none
  else none

end PtoCodec
