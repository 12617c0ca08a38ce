import PtoCodec.DecodePrefix

namespace PtoCodec

namespace Val

def Decoded (type : Int) : Val → Prop
  | .bool _ => type = EType.bool.code
  | .short _ => type = EType.short.code
  | .int _ => type = EType.int.code
  | .float x => type = EType.float.code ∧ ¬ Signaling x
  | .double _ => type = EType.double.code
  | .string s => type = EType.string.code ∧ s.length ≤ 0xffff
  | .record _ | .array _ => False

theorem Decoded.scalarCode {type : Int} {a : Val} (hs : a.Decoded type) : scalarCode type := by
  cases a <;> simp_all [Decoded, PtoCodec.scalarCode, EType.code]

end Val

section Parsed

variable {δ : Type} (D : Depth δ)

inductive Parsed : δ → Field → Val → Prop
  | scalar {d f a} : f.array = false → a.Decoded f.type → Parsed d f a
  | record {d f fields} : f.array = false → f.type = EType.pto.code →
      D.tooDeep (D.enter d f) = false → (Val.record fields).RecordOf f.childs →
      (∀ p ∈ f.childs.zip (fields.map Prod.snd), Parsed (D.enter d f) p.1 p.2) →
      Parsed d f (.record fields)
  | scalars {d f xs} : f.array = true → scalarCode f.type → xs.length ≤ 0xffff →
      (∀ x ∈ xs, x.Decoded f.type) → Parsed d f (.array xs)
  | records {d f xs} : f.array = true → f.type = EType.pto.code →
      D.tooDeep (D.enter d f) = false → xs.length ≤ 0xffff → (∀ x ∈ xs, x.RecordOf f.childs) →
      (∀ x ∈ xs, ∀ p ∈ f.childs.zip x.values, Parsed (D.enter d f) p.1 p.2) →
      Parsed d f (.array xs)

end Parsed

theorem varintLen_le_seven (n : Nat) : varintLen n ≤ 7 := by
  unfold varintLen
  cases h : (List.range' 1 7).find? (fun l => n < 2 ^ (8 * l)) with
  | none => exact le_refl 7
  | some l =>
    have := List.mem_range'_1.mp (List.mem_of_find?_eq_some h)
    simp only [Option.getD_some]
    omega

theorem varint7_length_le {L n : Nat} (hn : n < 256 ^ L) {v : BitVec 64}
    (hv : v = BitVec.ofNat 64 n ∨ v = -BitVec.ofNat 64 n) : (varint7 v.toInt).length ≤ L + 1 := by
  unfold varint7
  by_cases h0 : v.toInt = 0
  · simp [h0]
  rw [if_neg h0, List.length_cons, length_le]
  by_cases hL : 7 ≤ L
  · have := varintLen_le_seven v.toInt.natAbs
    omega
  have hn' : n < 2 ^ 48 := lt_of_lt_of_le hn
    ((Nat.pow_le_pow_right (by norm_num) (by omega : L ≤ 6)).trans (by norm_num))
  have habs : v.toInt.natAbs = n := by
    rcases hv with rfl | rfl <;>
      simp only [BitVec.toInt_eq_toNat_cond, BitVec.toNat_neg, BitVec.toNat_ofNat] at h0 ⊢ <;>
      split_ifs at h0 ⊢ <;> omega
  have hL1 : 1 ≤ L := by
    by_contra hL0
    rw [show L = 0 by omega, pow_zero] at hn
    exact h0 (Int.natAbs_eq_zero.mp (by omega))
  rw [habs, ← Encoder.varintLength_eq]
  exact Nat.succ_le_succ (Encoder.varintLength_least hL1 (by rwa [pow_mul]))

namespace Decoder

section Reads

variable {d d' : Decoder} {k : Nat} {bytes : Bytes}

theorem readFixed_ok (h : d.readFixed k = .ok (bytes, d')) : bytes = d.load k ∧ d' = d.skip k := by
  obtain ⟨rem, -, h⟩ := bind_eq_ok.mp h
  split at h
  · cases h
  obtain ⟨off, hoff, h⟩ := bind_eq_ok.mp h
  obtain ⟨rfl, -⟩ := intResult_eq_ok hoff
  cases h
  exact ⟨rfl, rfl⟩

@[simp] theorem length_load (d : Decoder) (k : Nat) : (d.load k).length = k := by
  simp [load]

def ReadsSound (read : Decoder → Except Fault (LuaValue × Decoder)) (P : Val → Prop) : Prop :=
  ∀ {d x d'}, read d = .ok (x, d') → ∃ a, P a ∧ x = a.conc ∧ d.offset + a.layout.length ≤ d'.offset

theorem readFixed_map_sound {P : Val → Prop} {G : Bytes × Decoder → LuaValue × Decoder} (g : Bytes → Val)
    (hG : ∀ b d, G (b, d) = ((g b).conc, d)) (hP : ∀ b, P (g b)) (hlen : ∀ b, (g b).layout.length = k) :
    ReadsSound (fun d => (d.readFixed k).map G) P := fun h => by
  obtain ⟨⟨b, d1⟩, h1, hg⟩ := map_eq_ok.mp h
  obtain ⟨-, rfl⟩ := readFixed_ok h1
  rw [hG] at hg
  cases hg
  exact ⟨g b, hP b, rfl, by simp only [hlen, skip, le_refl]⟩

theorem readString_sound (h : d.readString = .ok (bytes, d')) :
    bytes.length ≤ 0xffff ∧ d.offset + (le bytes.length 2 ++ bytes).length ≤ d'.offset := by
  obtain ⟨⟨size, d1⟩, h1, h⟩ := bind_eq_ok.mp h
  obtain ⟨rfl, rfl⟩ := readFixed_ok h1
  obtain ⟨-, rfl, rfl⟩ := readBytes_within h
  have := leValue_lt (d.load 2)
  simp only [length_load, skip, List.length_append, length_le, Nat.reducePow] at this ⊢
  omega

theorem readVarint_sound {v : BitVec 64} (h : d.readVarint = .ok (v, d')) :
    d.offset + (varint7 v.toInt).length ≤ d'.offset := by
  obtain ⟨⟨tag, d1⟩, h1, h⟩ := bind_eq_ok.mp h
  obtain ⟨rfl, rfl⟩ := readFixed_ok h1
  dsimp only at h
  split at h
  · cases h
    simp [varint7, skip]
  obtain ⟨⟨value, d2⟩, h2, h⟩ := bind_eq_ok.mp h
  obtain ⟨-, rfl, rfl⟩ := readBytes_within h2
  have hlt := leValue_lt ((d.skip 1).load (leValue (d.load 1) / 2))
  rw [length_load] at hlt
  dsimp only at h
  split_ifs at h <;> cases h
  · have := varint7_length_le hlt (.inl rfl)
    simp only [skip] at this ⊢
    omega
  · have := varint7_length_le hlt (.inr rfl)
    simp only [skip] at this ⊢
    omega

theorem scalarRead_sound {type : Int} (hc : scalarCode type) : ReadsSound (scalarRead type) (Val.Decoded type) := by
  obtain ⟨t, ht⟩ := Option.isSome_iff_exists.mp (scalarCode_isSome hc)
  have hpto := hc.2
  rw [EType.ofCode_eq_some] at ht
  subst ht
  cases t <;> simp only [scalarRead, EType.ofCode_code] <;> intro d x d' h
  case bool =>
    obtain ⟨⟨b, d1⟩, h1, h⟩ := bind_eq_ok.mp h
    obtain ⟨-, rfl⟩ := readFixed_ok h1
    dsimp only at h
    split_ifs at h
    cases h
    exact ⟨.bool (leValue b ≠ 0), rfl, rfl, by simp [Val.layout, skip]⟩
  case short =>
    exact readFixed_map_sound (fun b => .short (BitVec.ofNat 16 (leValue b))) (fun _ _ => rfl) (fun _ => by rfl)
      (fun _ => length_le _ _) h
  case int =>
    obtain ⟨⟨v, d1⟩, h1, hg⟩ := map_eq_ok.mp h
    cases hg
    exact ⟨.int v, rfl, rfl, readVarint_sound h1⟩
  case float =>
    exact readFixed_map_sound (fun b => .float (narrow (widen (BitVec.ofNat 32 (leValue b)))))
      (fun _ _ => by simp only [Val.conc, widen_narrow_widen]) (fun _ => ⟨rfl, not_signaling_narrow _⟩)
      (fun _ => length_le _ _) h
  case double =>
    exact readFixed_map_sound (fun b => .double (BitVec.ofNat 64 (leValue b))) (fun _ _ => rfl) (fun _ => by rfl)
      (fun _ => length_le _ _) h
  case string =>
    obtain ⟨⟨s, d1⟩, h1, hg⟩ := map_eq_ok.mp h
    cases hg
    obtain ⟨hs, hle⟩ := readString_sound h1
    exact ⟨.string s, ⟨rfl, hs⟩, rfl, hle⟩
  case pto => exact absurd hpto (lt_irrefl _)

end Reads

section Walk

variable {read : Decoder → Except Fault (LuaValue × Decoder)} {P : Val → Prop}

theorem decodeMembers_sound (hr : ReadsSound read P) :
    ∀ (n : Nat) (arr : List LuaValue) {d r d'},
      decodeMembers read (List.range' (arr.length + 1) n) (.table arr []) d = .ok (r, d') →
      ∃ xs : List Val, xs.length = n ∧ (∀ x ∈ xs, P x) ∧ r = .table (arr ++ xs.map Val.conc) [] ∧
        d.offset + (xs.map Val.layout).flatten.length ≤ d'.offset
  | 0, _, _, _, _, h => by cases h; exact ⟨[], rfl, by simp, by simp, by simp⟩
  | n + 1, arr, _, _, _, h => by
    simp only [List.range'_succ, decodeMembers] at h
    obtain ⟨⟨x, d1⟩, h1, h⟩ := bind_eq_ok.mp h
    obtain ⟨a, ha, rfl, hle1⟩ := hr h1
    dsimp only at h
    rw [LuaValue.rawseti_push, show arr.length + 1 + 1 = (arr ++ [a.conc]).length + 1 by simp] at h
    obtain ⟨xs, hlen, hxs, rfl, hle⟩ := decodeMembers_sound hr n _ h
    refine ⟨a :: xs, by simp [hlen], List.forall_mem_cons.mpr ⟨ha, hxs⟩, by simp, ?_⟩
    simp only [List.map_cons, List.flatten_cons, List.length_append, Nat.cast_add]
    omega

theorem decodeValue_sound (hr : ReadsSound read P) {f : Field} {parent r : LuaValue} {d d' : Decoder}
    (h : decodeValue read f parent d = .ok (r, d')) :
    ∃ a, r = parent.setfield f.name a.conc ∧ d.offset + a.layout.length ≤ d'.offset ∧
      (f.array = false ∧ P a ∨ f.array = true ∧ ∃ xs, a = .array xs ∧ xs.length ≤ 0xffff ∧ ∀ x ∈ xs, P x) := by
  unfold decodeValue at h
  split at h
  · rename_i harr
    obtain ⟨⟨size, d1⟩, h1, h⟩ := bind_eq_ok.mp h
    obtain ⟨rfl, rfl⟩ := readFixed_ok h1
    obtain ⟨⟨t, d2⟩, h2, h⟩ := bind_eq_ok.mp h
    cases h
    obtain ⟨xs, hlen, hxs, rfl, hle⟩ := decodeMembers_sound hr _ [] h2
    have := leValue_lt (d.load 2)
    simp only [length_load, Nat.reducePow] at this
    refine ⟨.array xs, by simp, ?_, .inr ⟨harr, xs, rfl, by omega, hxs⟩⟩
    simp only [Val.layout_array, List.length_append, length_le, skip, Nat.cast_add] at hle ⊢
    omega
  · rename_i harr
    obtain ⟨⟨x, d1⟩, h1, h⟩ := bind_eq_ok.mp h
    cases h
    obtain ⟨a, ha, rfl, hle⟩ := hr h1
    exact ⟨a, rfl, hle, .inl ⟨by simpa using harr, ha⟩⟩

variable {δ : Type} (D : Depth δ)

theorem decodeChildren_sound {depth : δ} :
    ∀ {cs : List Field}, (∀ c ∈ cs, ∀ parent {d r d'}, decodeOne D c depth parent d = .ok (r, d') →
      ∃ a, Parsed D depth c a ∧ r = parent.setfield c.name a.conc ∧ d.offset + a.layout.length ≤ d'.offset) →
    ∀ record {d r d'}, decodeChildren D cs depth record d = .ok (r, d') →
      ∃ fields : List (String × Val), (Val.record fields).RecordOf cs ∧
        (∀ p ∈ cs.zip (fields.map Prod.snd), Parsed D depth p.1 p.2) ∧ r = Val.concFields fields record ∧
        d.offset + (Val.record fields).layout.length ≤ d'.offset
  | [], _, _, _, _, _, h => by cases h; exact ⟨[], rfl, by simp, rfl, by simp⟩
  | c :: cs, hc, record, _, _, _, h => by
    obtain ⟨⟨r1, d1⟩, h1, h⟩ := bind_eq_ok.mp h
    obtain ⟨a, ha, rfl, hle1⟩ := hc c (List.mem_cons_self c cs) record h1
    obtain ⟨fields, hn, hp, rfl, hle⟩ :=
      decodeChildren_sound (fun c' hc' => hc c' (List.mem_cons_of_mem c hc')) _ h
    refine ⟨(c.name, a) :: fields, ?_, ?_, rfl, ?_⟩
    · simp only [Val.RecordOf, List.map_cons] at hn ⊢
      rw [hn]
    · simp only [List.map_cons, List.zip_cons_cons, List.forall_mem_cons]
      exact ⟨ha, hp⟩
    · simp only [Val.layout_record_cons, List.length_append, Nat.cast_add]
      omega

theorem decodeOne_sound (f : Field) : ∀ depth parent {d r d'}, decodeOne D f depth parent d = .ok (r, d') →
    ∃ a, Parsed D depth f a ∧ r = parent.setfield f.name a.conc ∧ d.offset + a.layout.length ≤ d'.offset := by
  induction f using Field.induction with
  | mk name array type childs ih =>
    intro depth parent d r d' h
    by_cases hpto : type = EType.pto.code
    · rw [decodeOne_pto D (show (⟨name, array, type, childs⟩ : Field).type = EType.pto.code from hpto)] at h
      simp only [decodePto] at h
      split at h
      · cases h
      rename_i hdeep
      have hch : ReadsSound (fun d => decodeChildren D childs (D.enter depth ⟨name, array, type, childs⟩)
          (.table [] []) d) fun a => ∃ fields, a = .record fields ∧ (Val.record fields).RecordOf childs ∧
            ∀ p ∈ childs.zip (fields.map Prod.snd), Parsed D (D.enter depth ⟨name, array, type, childs⟩) p.1 p.2 :=
        fun h => by
          obtain ⟨fields, hn, hp, rfl, hle⟩ := decodeChildren_sound D (fun c hc => ih c hc _) _ h
          exact ⟨.record fields, ⟨fields, rfl, hn, hp⟩, rfl, hle⟩
      obtain ⟨a, rfl, hle, hshape⟩ := decodeValue_sound hch h
      refine ⟨a, ?_, rfl, hle⟩
      rcases hshape with ⟨harr, fields, rfl, hn, hp⟩ | ⟨harr, xs, rfl, hlen, hxs⟩
      · exact .record harr hpto (by simpa using hdeep) hn hp
      · refine .records harr hpto (by simpa using hdeep) hlen (fun x hx => ?_) (fun x hx => ?_)
        · obtain ⟨fields, rfl, hn, -⟩ := hxs x hx
          exact hn
        · obtain ⟨fields, rfl, -, hp⟩ := hxs x hx
          exact hp
    · cases ht : EType.ofCode type with
      | none =>
        simp only [decodeOne, ht] at h
        cases h
      | some t =>
        have hc : scalarCode type := scalarCode_of_isSome (by simp [ht]) hpto
        rw [decodeOne_scalar D (show scalarCode (⟨name, array, type, childs⟩ : Field).type from hc)] at h
        obtain ⟨a, rfl, hle, hshape⟩ := decodeValue_sound (scalarRead_sound hc) h
        refine ⟨a, ?_, rfl, hle⟩
        rcases hshape with ⟨harr, ha⟩ | ⟨harr, xs, rfl, hlen, hxs⟩
        · exact .scalar harr ha
        · exact .scalars harr hc hlen hxs

end Walk

end Decoder

theorem decodePto_parsed {mem : Nat → UInt8} {ctx : Context} {id : BitVec 64} {arg3 arg4 r : LuaValue}
    (h : decodePto mem ctx id arg3 arg4 = .ok r) :
    ∃ P fields, ctx.getPto (toUInt16 id.toInt) = some P ∧ (Val.record fields).RecordOf P.fields ∧
      (∀ p ∈ P.fields.zip (fields.map Prod.snd), Parsed counter 1 p.1 p.2) ∧ r = (Val.record fields).conc := by
  obtain ⟨P, ptr, size, d, hP, -, hwalk, -⟩ := decodePto_eq_ok h
  obtain ⟨fields, hn, hp, rfl, -⟩ :=
    Decoder.decodeChildren_sound counter (fun c _ => Decoder.decodeOne_sound counter c 1) _ hwalk
  exact ⟨P, fields, hP, hn, hp, rfl⟩

theorem decodePto_parsed_sample :
    decodePto (fun _ => 0) sampleContext 0 (.string [5, 7, 0, 2, 0, 104, 105]) .nil = .ok sampleDecoded ∧
      ∃ P fields, sampleContext.getPto (toUInt16 (0 : BitVec 64).toInt) = some P ∧
        (Val.record fields).RecordOf P.fields ∧ (∀ p ∈ P.fields.zip (fields.map Prod.snd), Parsed counter 1 p.1 p.2) ∧
        sampleDecoded = (Val.record fields).conc :=
  have h : decodePto (fun _ => 0) sampleContext 0 (.string [5, 7, 0, 2, 0, 104, 105]) .nil = .ok sampleDecoded := rfl
  ⟨h, decodePto_parsed h⟩

end PtoCodec
