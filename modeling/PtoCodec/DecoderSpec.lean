import PtoCodec.Wire
import PtoCodec.Decoder

namespace PtoCodec

namespace Decoder

structure At (d : Decoder) (bytes : Bytes) : Prop where
  offset_nonneg : 0 ≤ d.offset
  end_le : d.offset + bytes.length ≤ d.size
  size_le : d.size ≤ INT_MAX
  get : ∀ j (h : j < bytes.length), d.ptr (d.offset.toNat + j) = bytes[j]

def skip (d : Decoder) (n : Nat) : Decoder := { d with offset := d.offset + n }

@[simp] theorem skip_zero (d : Decoder) : d.skip 0 = d := by simp [skip]

@[simp] theorem skip_skip (d : Decoder) (m n : Nat) : (d.skip m).skip n = d.skip (m + n) := by
  simp only [skip, Nat.cast_add, Int.add_assoc]

section At

variable {d : Decoder} {xs ys : Bytes}

theorem At.right (h : d.At (xs ++ ys)) : (d.skip xs.length).At ys := by
  have := h.offset_nonneg; have := h.end_le; simp only [List.length_append, Nat.cast_add] at this
  refine ⟨by simp only [skip]; omega, by simp only [skip]; omega, h.size_le, fun j hj => ?_⟩
  have := h.get (xs.length + j) (by simp; omega)
  rw [List.getElem_append_right (by omega)] at this
  simp only [Nat.add_sub_cancel_left] at this
  simp only [skip, ← this]
  congr 1; omega

theorem At.load (h : d.At (xs ++ ys)) : d.load xs.length = xs := by
  apply List.ext_getElem (by simp [Decoder.load])
  intro j h1 h2
  simp only [Decoder.load, List.getElem_map, List.getElem_range]
  rw [h.get j (by simp; omega), List.getElem_append_left]

theorem readFixed_of_At (h : d.At (xs ++ ys)) : d.readFixed xs.length = .ok (xs, d.skip xs.length) := by
  have := h.offset_nonneg; have := h.end_le; have := h.size_le
  simp only [List.length_append, Nat.cast_add, INT_MAX] at *
  simp only [readFixed]
  rw [intResult_of_fits (by simp only [INT_MAX]; omega), ok_bind, if_neg (by simp only [toSizeT]; omega),
    intResult_of_fits (by simp only [INT_MAX]; omega), ok_bind, h.load]
  rfl

theorem readBytes_of_At (h : d.At (xs ++ ys)) : d.readBytes xs.length = .ok (xs, d.skip xs.length) := by
  have := h.offset_nonneg; have := h.end_le; have := h.size_le
  simp only [List.length_append, Nat.cast_add, INT_MAX] at *
  simp only [readBytes]
  rw [intResult_of_fits (by simp only [INT_MAX]; omega), ok_bind, if_neg (by omega),
    intResult_of_fits (by simp only [INT_MAX]; omega), ok_bind, h.load]
  rfl

theorem readVarint_of_At {x : BitVec 64} {rest : Bytes} (hx : x.toInt.natAbs < 2 ^ 56)
    (h : d.At (varint7 x.toInt ++ rest)) : d.readVarint = .ok (x, d.skip (varint7 x.toInt).length) := by
  unfold varint7 at h ⊢
  by_cases h0 : x.toInt = 0
  · rw [if_pos h0] at h ⊢
    have h1 := readFixed_of_At h
    simp only [List.length_singleton] at h1 ⊢
    simp only [readVarint, h1, ok_bind, eq_zero_of_toInt h0]
    rfl
  · rw [if_neg h0] at h ⊢
    obtain ⟨hl1, hl7, hn⟩ := varintLen_spec hx
    have hat : d.At ([UInt8.ofNat (2 * varintLen x.toInt.natAbs + if 0 < x.toInt then 1 else 0)] ++
        (le x.toInt.natAbs (varintLen x.toInt.natAbs) ++ rest)) := h
    have h1 := readFixed_of_At hat
    have h2 := readBytes_of_At hat.right
    have htag : leValue [UInt8.ofNat (2 * varintLen x.toInt.natAbs + if 0 < x.toInt then 1 else 0)] =
        2 * varintLen x.toInt.natAbs + if 0 < x.toInt then 1 else 0 := by
      rw [leValue_singleton, toNat_byte]; split_ifs <;> omega
    simp only [List.length_singleton, length_le] at h1 h2
    simp only [readVarint, h1, ok_bind, htag]
    have hmod : leValue (le x.toInt.natAbs (varintLen x.toInt.natAbs)) = x.toInt.natAbs := by
      rw [leValue_le, Nat.mod_eq_of_lt (by rwa [show (256 : Nat) = 2 ^ 8 from rfl, ← pow_mul])]
    have hlen : (d.skip 1).skip (varintLen x.toInt.natAbs) =
        d.skip (UInt8.ofNat (2 * varintLen x.toInt.natAbs + if 0 < x.toInt then 1 else 0) ::
          le x.toInt.natAbs (varintLen x.toInt.natAbs)).length := by
      simp only [skip_skip, List.length_cons, length_le, Nat.add_comm]
    by_cases hpos : 0 < x.toInt
    · simp only [hpos, if_true] at h2 hlen ⊢
      rw [if_neg (by omega), show (2 * varintLen x.toInt.natAbs + 1) / 2 = varintLen x.toInt.natAbs by omega,
        h2, ok_bind, if_neg (by omega), if_pos (by omega), hmod, ofNat_natAbs_toInt hpos, hlen]
    · simp only [hpos, if_false] at h2 hlen ⊢
      rw [if_neg (by omega), show (2 * varintLen x.toInt.natAbs + 0) / 2 = varintLen x.toInt.natAbs by omega,
        h2, ok_bind, if_neg (by omega), if_neg (by omega), hmod, if_neg (by omega),
        neg_ofNat_natAbs_toInt (by omega), hlen]

end At

def scalarRead (type : Int) : Decoder → Except Fault (LuaValue × Decoder) :=
  match EType.ofCode type with
  | some .bool => readBool
  | some .short => readShort
  | some .int => readInt
  | some .float => readFloat
  | some .double => readDouble
  | some .string => readStringValue
  | _ => readBool

theorem scalarRead_layout {type : Int} {a : Val} {d : Decoder} {rest : Bytes} (hs : a.Scalar type)
    (h : d.At (a.layout ++ rest)) : scalarRead type d = .ok (a.conc, d.skip a.layout.length) := by
  cases a with
  | bool b =>
    rw [show type = EType.bool.code from hs]
    have h1 := readFixed_of_At h
    simp only [Val.layout, List.length_singleton] at h1 ⊢
    simp only [scalarRead, EType.ofCode_code, readBool, h1]
    cases b <;> rfl
  | short x =>
    rw [show type = EType.short.code from hs]
    simp only [Val.layout] at h
    simp only [scalarRead, EType.ofCode_code, readShort, Val.layout, Val.conc]
    rw [← length_le x.toNat 2, readFixed_of_At h]
    simp [Except.map, Nat.mod_eq_of_lt x.isLt]
  | int x =>
    rw [hs.1]
    simp only [scalarRead, EType.ofCode_code, readInt, Val.layout, Val.conc]
    rw [readVarint_of_At hs.2 h]; rfl
  | float x =>
    rw [show type = EType.float.code from hs]
    simp only [Val.layout] at h
    simp only [scalarRead, EType.ofCode_code, readFloat, Val.layout, Val.conc]
    rw [← length_le x.toNat 4, readFixed_of_At h]
    simp [Except.map, Nat.mod_eq_of_lt x.isLt]
  | double x =>
    rw [show type = EType.double.code from hs]
    simp only [Val.layout] at h
    simp only [scalarRead, EType.ofCode_code, readDouble, Val.layout, Val.conc]
    rw [← length_le x.toNat 8, readFixed_of_At h]
    simp [Except.map, Nat.mod_eq_of_lt x.isLt]
  | string str =>
    rw [hs.1]
    simp only [Val.layout, List.append_assoc] at h
    have h1 := readFixed_of_At h
    have h2 := readBytes_of_At h.right
    have hlv : leValue (le str.length 2) = str.length := by
      rw [leValue_le, Nat.mod_eq_of_lt (by have := hs.2; omega)]
    simp only [length_le] at h1 h2
    simp only [scalarRead, EType.ofCode_code, readStringValue, readString, h1, ok_bind, hlv, h2, Val.layout,
      Val.conc, List.length_append, length_le, skip_skip]
    rfl
  | record _ => exact hs.elim
  | array _ => exact hs.elim

section Walk

variable {read : Decoder → Except Fault (LuaValue × Decoder)} {P : Val → Prop}

def Reads (read : Decoder → Except Fault (LuaValue × Decoder)) (P : Val → Prop) : Prop :=
  ∀ {x : Val} {d : Decoder} {rest : Bytes}, P x → d.At (x.layout ++ rest) →
    read d = .ok (x.conc, d.skip x.layout.length)

theorem decodeMembers_layout (hr : Reads read P) :
    ∀ {xs : List Val} (arr : List LuaValue) {d : Decoder} {rest : Bytes}, (∀ x ∈ xs, P x) →
      d.At ((xs.map Val.layout).flatten ++ rest) →
      decodeMembers read (List.range' (arr.length + 1) xs.length) (.table arr []) d =
        .ok (.table (arr ++ xs.map Val.conc) [], d.skip (xs.map Val.layout).flatten.length)
  | [], _, _, _, _, _ => by simp [decodeMembers]
  | x :: xs, arr, d, rest, hp, h => by
    simp only [List.map_cons, List.flatten_cons, List.append_assoc] at h
    simp only [List.length_cons, List.range'_succ, decodeMembers, hr (hp x (List.mem_cons_self x xs)) h,
      ok_bind, LuaValue.rawseti_push]
    rw [show arr.length + 1 + 1 = (arr ++ [x.conc]).length + 1 by simp,
      decodeMembers_layout hr _ (fun y hy => hp y (List.mem_cons_of_mem x hy)) h.right]
    simp

theorem decodeValue_single {f : Field} {parent : LuaValue} {d d' : Decoder} {x : LuaValue}
    (harr : f.array = false) (h : read d = .ok (x, d')) :
    decodeValue read f parent d = .ok (parent.setfield f.name x, d') := by
  simp [decodeValue, harr, h]

theorem decodeValue_array {f : Field} {parent : LuaValue} {xs : List Val} {d : Decoder} {rest : Bytes}
    (hr : Reads read P) (harr : f.array = true) (hlen : xs.length ≤ 0xffff) (hp : ∀ x ∈ xs, P x)
    (h : d.At ((Val.array xs).layout ++ rest)) :
    decodeValue read f parent d =
      .ok (parent.setfield f.name (Val.array xs).conc, d.skip (Val.array xs).layout.length) := by
  rw [Val.layout_array, List.append_assoc] at h
  have h1 := readFixed_of_At h
  have hlv : leValue (le xs.length 2) = xs.length := by rw [leValue_le, Nat.mod_eq_of_lt (by omega)]
  simp only [length_le] at h1
  have h2 := decodeMembers_layout hr [] hp h.right
  simp only [length_le, List.length_nil, Nat.zero_add, List.nil_append, skip_skip] at h2
  simp only [decodeValue, harr, if_true, h1, ok_bind, hlv, h2]
  simp [Val.conc, Val.layout_array, Nat.add_comm]

end Walk

section Typed

variable {δ : Type} (D : Depth δ) {d : δ} {parent : LuaValue} {dec : Decoder}

theorem decodeOne_scalar {f : Field} (hc : scalarCode f.type) :
    decodeOne D f d parent dec = decodeValue (scalarRead f.type) f parent dec := by
  obtain ⟨name, array, type, childs⟩ := f
  obtain ⟨t, ht⟩ := Option.isSome_iff_exists.mp (scalarCode_isSome hc)
  have := hc.2
  cases t <;> simp only [EType.ofCode_eq_some] at ht <;> subst ht <;> first | rfl | simp [EType.code] at this

theorem decodeOne_pto {f : Field} (hf : f.type = EType.pto.code) :
    decodeOne D f d parent dec = decodePto D f (decodeChildren D f.childs) parent d dec := by
  obtain ⟨name, array, type, childs⟩ := f
  simp only at hf
  subst hf
  rfl

theorem decodeChildren_layout {d' : δ} : ∀ {childs : List Field} {fields : List (String × Val)},
    fields.map Prod.fst = childs.map Field.name →
    (∀ p ∈ childs.zip (fields.map Prod.snd), ∀ {parent : LuaValue} {dec : Decoder} {rest : Bytes},
      dec.At (p.2.layout ++ rest) →
      decodeOne D p.1 d' parent dec = .ok (parent.setfield p.1.name p.2.conc, dec.skip p.2.layout.length)) →
    ∀ {r : LuaValue} {dec : Decoder} {rest : Bytes}, dec.At ((Val.record fields).layout ++ rest) →
      decodeChildren D childs d' r dec =
        .ok (Val.concFields fields r, dec.skip (Val.record fields).layout.length)
  | [], [], _, _, _, _, _, _ => by simp [decodeChildren, Val.concFields]
  | c :: cs, (k, x) :: fs, hn, hp, r, dec, rest, h => by
    simp only [List.map_cons, List.cons.injEq] at hn
    simp only [Val.layout_record_cons, List.append_assoc] at h
    have h1 := @hp (c, x) (by simp) r dec _ h
    simp only [decodeChildren, h1, ok_bind]
    rw [decodeChildren_layout hn.2 (fun p hp' => hp p (List.mem_cons_of_mem _ hp')) h.right]
    simp [Val.concFields, hn.1]
  | [], _ :: _, hn, _, _, _, _, _ => by simp at hn
  | _ :: _, [], hn, _, _, _, _, _ => by simp at hn

theorem decodeOne_layout {f : Field} {a : Val} (ht : Typed D d f a) :
    ∀ {parent : LuaValue} {dec : Decoder} {rest : Bytes}, dec.At (a.layout ++ rest) →
      decodeOne D f d parent dec = .ok (parent.setfield f.name a.conc, dec.skip a.layout.length) := by
  induction ht with
  | scalar harr hs =>
    intro parent dec rest h
    rw [decodeOne_scalar D hs.scalarCode]
    exact decodeValue_single harr (scalarRead_layout hs h)
  | record harr hf hdeep hnames _ ih =>
    intro parent dec rest h
    rw [decodeOne_pto D hf]
    simp only [decodePto, hdeep, Bool.false_eq_true, if_false]
    exact decodeValue_single harr (decodeChildren_layout D hnames ih h)
  | scalars harr hc hlen hs =>
    intro parent dec rest h
    rw [decodeOne_scalar D hc]
    exact decodeValue_array (fun hx h => scalarRead_layout hx h) harr hlen hs h
  | @records d f xs harr hf hdeep hlen hrec _ ih =>
    intro parent dec rest h
    rw [decodeOne_pto D hf]
    simp only [decodePto, hdeep, Bool.false_eq_true, if_false]
    refine decodeValue_array (show Reads _ (· ∈ xs) from ?_) harr hlen (fun _ hx => hx) h
    intro x dec rest hx h
    have hx' := hrec x hx
    cases x with
    | record fields => exact decodeChildren_layout D hx' (ih _ hx) h
    | _ => simp [Val.RecordOf] at hx'

end Typed

end Decoder

end PtoCodec
