import PtoCodec.Encoder
import PtoCodec.Wire

namespace PtoCodec

namespace Encoder

def bytes (e : Encoder) : Bytes := e.ptr.take e.offset.toNat

structure Valid (e : Encoder) : Prop where
  length_ptr : e.ptr.length = e.size.toNat
  offset_nonneg : 0 ≤ e.offset
  offset_le : e.offset ≤ e.size
  size_pow : ∃ k ≤ 23, e.size = 128 * 2 ^ k

theorem valid_init : init.Valid :=
  ⟨rfl, le_refl _, by decide, ⟨0, by decide, rfl⟩⟩

@[simp] theorem bytes_init : init.bytes = [] := rfl

theorem two_pow_pos (k : Nat) : (0 : Int) < 2 ^ k := by exact_mod_cast Nat.two_pow_pos k

theorem two_pow_mono {j k : Nat} (h : j ≤ k) : (2 : Int) ^ j ≤ 2 ^ k := by
  exact_mod_cast Nat.pow_le_pow_right (by decide) h

section Valid

variable {e e' : Encoder}

theorem Valid.size_le (h : e.Valid) : e.size ≤ 2 ^ 30 := by
  obtain ⟨k, hk, hs⟩ := h.size_pow
  have := two_pow_mono hk
  omega

theorem Valid.offset_eq (h : e.Valid) : e.offset = e.bytes.length := by
  have := h.length_ptr; have := h.offset_nonneg; have := h.offset_le
  simp only [bytes, List.length_take]; omega

theorem Valid.length_bytes_le (h : e.Valid) : e.bytes.length ≤ 2 ^ 30 := by
  have := h.offset_eq; have := h.offset_le; have := h.size_le; omega

end Valid

theorem intResult_double {k : Nat} {r : Int} (h : intResult (128 * 2 ^ k * 2) = .ok r) :
    k + 1 ≤ 23 ∧ r = 128 * 2 ^ (k + 1) := by
  simp only [intResult] at h
  split at h
  · rename_i hfit
    refine ⟨?_, by cases h; ring⟩
    by_contra hk
    have := two_pow_mono (show 23 ≤ k by omega)
    simp only [INT_MAX] at hfit; omega
  · cases h

theorem intResult_double_of_lt {k : Nat} (h : 128 * 2 ^ k < (2 : Int) ^ 30) :
    intResult (128 * 2 ^ k * 2) = .ok (128 * 2 ^ (k + 1)) := by
  have hfit : -INT_MAX - 1 ≤ 128 * 2 ^ k * 2 ∧ 128 * 2 ^ k * 2 ≤ INT_MAX := by
    have := two_pow_pos k
    simp only [INT_MAX]; omega
  rw [intResult_of_fits hfit]; ring_nf

theorem grow_sound {fuel k : Nat} {need r : Int} (hk : k ≤ 23)
    (h : grow fuel (128 * 2 ^ k) need = .ok r) :
    need ≤ r ∧ 128 * 2 ^ k ≤ r ∧ ∃ j ≤ 23, r = 128 * 2 ^ j := by
  induction fuel generalizing k with
  | zero => cases h
  | succ fuel ih =>
    simp only [grow] at h
    split at h
    · obtain ⟨r', hr', h⟩ := bind_eq_ok.mp h
      obtain ⟨hk', rfl⟩ := intResult_double hr'
      obtain ⟨h1, h2, h3⟩ := ih hk' h
      refine ⟨h1, ?_, h3⟩
      rw [pow_succ] at h2
      have := two_pow_pos k
      omega
    · cases h; exact ⟨by omega, le_refl _, k, hk, rfl⟩

theorem grow_ok {fuel k : Nat} {need : Int} (hneed : need ≤ 2 ^ 30) (hfuel : 23 ≤ fuel + k) :
    ∃ r, grow (fuel + 1) (128 * 2 ^ k) need = .ok r := by
  induction fuel generalizing k with
  | zero =>
    have := two_pow_mono (show 23 ≤ k by omega)
    exact ⟨_, if_neg (by omega)⟩
  | succ fuel ih =>
    simp only [grow]
    split
    · rw [intResult_double_of_lt (by omega), ok_bind]
      exact ih (by omega)
    · exact ⟨_, rfl⟩

section Append

variable {e e' : Encoder} {sz : Int} {data : Bytes}

theorem reserve_sound (hv : e.Valid) (hsz : 0 ≤ sz) (h : e.reserve sz = .ok e') :
    e'.Valid ∧ e'.offset = e.offset ∧ e'.bytes = e.bytes ∧ e.offset + sz ≤ e'.size := by
  obtain ⟨need, hneed, h⟩ := bind_eq_ok.mp h
  obtain ⟨rfl, -⟩ := intResult_eq_ok hneed
  split at h
  · cases h; exact ⟨hv, rfl, rfl, ‹_›⟩
  obtain ⟨nsize, hgrow, h⟩ := bind_eq_ok.mp h
  cases h
  obtain ⟨k, hk, hs⟩ := hv.size_pow
  obtain ⟨n0, hn0, hgrow⟩ := bind_eq_ok.mp hgrow
  rw [hs] at hn0
  obtain ⟨hk', rfl⟩ := intResult_double hn0
  obtain ⟨h1, h2, j, hj, rfl⟩ := grow_sound hk' hgrow
  have := two_pow_pos k
  have := hv.length_ptr; have := hv.offset_nonneg; have := hv.offset_le
  rw [pow_succ] at h2
  refine ⟨⟨?_, hv.offset_nonneg, by simp only; omega, j, hj, rfl⟩, rfl, ?_, by simp only; omega⟩
  · simp only [List.length_append, List.length_take, List.length_replicate]; omega
  · simp only [bytes, List.take_append_eq_append_take, List.length_take]
    rw [List.take_take, min_eq_left (by omega), show e.offset.toNat - min e.size.toNat e.ptr.length = 0 by omega,
      List.take_zero, List.append_nil]

theorem reserve_ok (hv : e.Valid) (hsz : 0 ≤ sz) (h : e.offset + sz ≤ 2 ^ 30) :
    ∃ e', e.reserve sz = .ok e' := by
  have := hv.offset_nonneg
  simp only [reserve]
  rw [intResult_of_fits (by simp only [INT_MAX]; omega), ok_bind]
  split
  · exact ⟨_, rfl⟩
  obtain ⟨k, hk, hs⟩ := hv.size_pow
  rw [hs, intResult_double_of_lt (by omega), ok_bind]
  obtain ⟨r, hr⟩ := @grow_ok 31 (k + 1) (e.offset + sz) (by omega) (by omega)
  exact ⟨_, by rw [hr]; rfl⟩

theorem append_sound (hv : e.Valid) (h : e.append data = .ok e') :
    e'.Valid ∧ e'.bytes = e.bytes ++ data := by
  obtain ⟨e1, h1, h⟩ := bind_eq_ok.mp h
  obtain ⟨hv1, ho1, hb1, hroom⟩ := reserve_sound hv (by omega) h1
  obtain ⟨off, hoff, h⟩ := bind_eq_ok.mp h
  obtain ⟨rfl, -⟩ := intResult_eq_ok hoff
  cases h
  have := hv1.length_ptr; have := hv1.offset_nonneg
  have hlen : (e1.ptr.take e1.offset.toNat).length = e1.offset.toNat := by
    simp only [List.length_take]; omega
  refine ⟨⟨?_, by simp only; omega, by simp only; omega, hv1.size_pow⟩, ?_⟩
  · simp only [List.length_append, hlen, List.length_drop]; omega
  · rw [← hb1]
    exact List.take_left' (by simp only [List.length_append, hlen]; omega)

theorem append_ok (hv : e.Valid) (h : e.bytes.length + data.length ≤ 2 ^ 30) :
    ∃ e', e.append data = .ok e' := by
  have := hv.offset_eq
  obtain ⟨e1, h1⟩ := reserve_ok hv (Int.natCast_nonneg data.length) (by omega)
  obtain ⟨hv1, ho1, -, hroom⟩ := reserve_sound hv (Int.natCast_nonneg data.length) h1
  have := hv1.size_le
  simp only [append, h1, ok_bind]
  rw [intResult_of_fits (by simp only [INT_MAX]; omega)]
  exact ⟨_, rfl⟩

theorem append_spec (hv : e.Valid) (h : e.bytes.length + data.length ≤ 2 ^ 30) :
    ∃ e', e.append data = .ok e' ∧ e'.Valid ∧ e'.bytes = e.bytes ++ data :=
  let ⟨e', he'⟩ := append_ok hv h
  ⟨e', he', append_sound hv he'⟩

end Append

theorem capacity_lt {k : Nat} (hk : k < 23) : (128 : Int) * 2 ^ k < 2 ^ 30 := by
  have := two_pow_mono (show k + 1 ≤ 23 by omega)
  rw [pow_succ] at this
  omega

theorem grow_overflow {fuel k : Nat} {need : Int} (hk : k ≤ 23) (hneed : 2 ^ 30 < need)
    (hfuel : 23 ≤ fuel + k) : grow (fuel + 1) (128 * 2 ^ k) need = .error (.undefined .signedOverflow) := by
  have hle := two_pow_mono hk
  induction fuel generalizing k with
  | zero =>
    obtain rfl : k = 23 := by omega
    rw [grow, if_pos (by norm_num; omega)]
    rfl
  | succ fuel ih =>
    rw [grow, if_pos (by omega)]
    by_cases h23 : k = 23
    · subst h23; rfl
    · rw [intResult_double_of_lt (capacity_lt (by omega)), ok_bind]
      exact ih (by omega) (by omega) (two_pow_mono (by omega))

section Overflow

variable {e : Encoder} {sz : Int} {data : Bytes}

theorem reserve_overflow (hv : e.Valid) (h : 2 ^ 30 < e.offset + sz) :
    e.reserve sz = .error (.undefined .signedOverflow) := by
  have := hv.size_le
  simp only [reserve]
  by_cases hfit : -INT_MAX - 1 ≤ e.offset + sz ∧ e.offset + sz ≤ INT_MAX
  · rw [intResult_of_fits hfit, ok_bind, if_neg (by omega)]
    obtain ⟨k, hk, hs⟩ := hv.size_pow
    rw [hs]
    by_cases h23 : k = 23
    · subst h23; rfl
    · rw [intResult_double_of_lt (capacity_lt (by omega)), ok_bind, grow_overflow (by omega) h (by omega)]
      rfl
  · rw [intResult, if_neg hfit]; rfl

theorem append_overflow (hv : e.Valid) (h : 2 ^ 30 < e.bytes.length + data.length) :
    e.append data = .error (.undefined .signedOverflow) := by
  rw [append, reserve_overflow hv (by have := hv.offset_eq; omega)]
  rfl

end Overflow

def appendAll : Encoder → List Bytes → Except Fault Encoder
  | e, [] => .ok e
  | e, c :: cs => e.append c >>= fun e => appendAll e cs

theorem appendAll_spec : ∀ (cs : List Bytes) {e : Encoder}, e.Valid →
    (e.bytes.length + (cs.map List.length).sum ≤ 2 ^ 30 →
      ∃ e', appendAll e cs = .ok e' ∧ e'.Valid ∧ e'.bytes = e.bytes ++ cs.flatten) ∧
    (2 ^ 30 < e.bytes.length + (cs.map List.length).sum →
      appendAll e cs = .error (.undefined .signedOverflow))
  | [], e, hv => ⟨fun _ => ⟨e, rfl, hv, by simp⟩, fun h => by simp at h; have := hv.length_bytes_le; omega⟩
  | c :: cs, e, hv => by
    simp only [List.map_cons, List.sum_cons, List.flatten_cons]
    by_cases hc : e.bytes.length + c.length ≤ 2 ^ 30
    · obtain ⟨e1, h1, hv1, hb1⟩ := append_spec hv hc
      have hlen : e1.bytes.length = e.bytes.length + c.length := by simp [hb1]
      obtain ⟨hok, hover⟩ := appendAll_spec cs hv1
      simp only [appendAll, h1, ok_bind, hlen] at hok hover ⊢
      refine ⟨fun h => ?_, fun h => hover (by omega)⟩
      obtain ⟨e', h', hv', hb'⟩ := hok (by omega)
      exact ⟨e', h', hv', by rw [hb', hb1, List.append_assoc]⟩
    · have hov : e.append c = .error (.undefined .signedOverflow) := append_overflow hv (by omega)
      simp only [appendAll, hov, error_bind]
      exact ⟨fun h => absurd h (by omega), fun _ => trivial⟩

theorem appendAll_init (chunks : List Bytes) :
    (∀ (e e' : Encoder) (sz : Int), e.Valid → 0 ≤ sz → e.reserve sz = .ok e' →
      e.offset + sz ≤ e'.size ∧ e'.Valid ∧ e'.bytes = e.bytes) ∧
    ((chunks.map List.length).sum ≤ 2 ^ 30 →
      ∃ e, appendAll init chunks = .ok e ∧ e.Valid ∧ (∃ k ≤ 23, e.size = 128 * 2 ^ k) ∧
        e.bytes = chunks.flatten ∧ e.offset = (chunks.map List.length).sum) ∧
    (2 ^ 30 < (chunks.map List.length).sum → appendAll init chunks = .error (.undefined .signedOverflow)) := by
  obtain ⟨hok, hover⟩ := appendAll_spec chunks valid_init
  simp only [bytes_init, List.length_nil, Nat.zero_add, List.nil_append] at hok hover
  refine ⟨fun e e' sz hv hsz h => ?_, fun h => ?_, fun h => hover (by exact_mod_cast h)⟩
  · obtain ⟨hv', -, hb, hroom⟩ := reserve_sound hv hsz h
    exact ⟨hroom, hv', hb⟩
  · obtain ⟨e, he, hv, hb⟩ := hok (by exact_mod_cast h)
    refine ⟨e, he, hv, hv.size_pow, hb, ?_⟩
    rw [hv.offset_eq, hb, List.length_flatten]

end Encoder

end PtoCodec
