import PtoCodec.DecodeSound

namespace PtoCodec

namespace Val

theorem Decoded.extractScalar_conc {type : Int} {a : Val} (h : a.Decoded type) : extractScalar type a.conc = a := by
  cases a <;> simp only [Decoded] at h
  case bool => subst h; simp [extractScalar, conc]
  case short => subst h; simp [extractScalar, conc, shortOf_signExtend]
  case int => subst h; simp [extractScalar, conc]
  case float x => obtain ⟨rfl, hs⟩ := h; simp [extractScalar, conc, narrow_widen hs]
  case double => subst h; simp [extractScalar, conc]
  case string => obtain ⟨rfl, -⟩ := h; simp [extractScalar, conc]

theorem Decoded.scalar {type : Int} {a : Val} (h : a.Decoded type) (hc : conformsScalar type a.conc) :
    a.Scalar type := by
  cases a <;> simp only [Decoded] at h
  case int x =>
    subst h
    obtain ⟨i, hi, hb⟩ := hc
    cases hi
    exact ⟨rfl, hb⟩
  case float => exact h.1
  all_goals exact h

end Val

section Fields

variable {childs : List Field} {fields : List (String × Val)}

theorem mem_of_mem_zip_fields {p : Field × Val} :
    ∀ {childs : List Field} {fields : List (String × Val)}, (Val.record fields).RecordOf childs →
      p ∈ childs.zip (fields.map Prod.snd) → (p.1.name, p.2) ∈ fields
  | c :: cs, (k, x) :: fs, hn, hp => by
    simp only [Val.RecordOf, List.map_cons, List.cons.injEq] at hn
    simp only [List.map_cons, List.zip_cons_cons, List.mem_cons] at hp
    rcases hp with rfl | hp
    · simp [hn.1]
    · exact List.mem_cons_of_mem _ (mem_of_mem_zip_fields hn.2 hp)
  | [], _, _, hp | _ :: _, [], _, hp => by simp at hp

theorem getfield_conc_zip (hn : (Val.record fields).RecordOf childs) (hnd : (childs.map Field.name).Nodup)
    {p : Field × Val} (hp : p ∈ childs.zip (fields.map Prod.snd)) :
    (Val.record fields).conc.getfield p.1.name = p.2.conc :=
  Val.getfield_concFields (by rwa [show fields.map Prod.fst = _ from hn]) (mem_of_mem_zip_fields hn hp)

theorem extractFields_of_zip {v : LuaValue} :
    ∀ {childs : List Field} {fields : List (String × Val)}, (Val.record fields).RecordOf childs →
      (∀ p ∈ childs.zip (fields.map Prod.snd), extract p.1 (v.getfield p.1.name) = p.2) →
      extractFields childs v = fields
  | [], [], _, _ => rfl
  | c :: cs, (k, x) :: fs, hn, h => by
    simp only [Val.RecordOf, List.map_cons, List.cons.injEq] at hn
    simp only [List.map_cons, List.zip_cons_cons, List.forall_mem_cons] at h
    rw [extractFields, h.1, hn.1, extractFields_of_zip hn.2 h.2]
  | [], _ :: _, hn, _ | _ :: _, [], hn, _ => by simp [Val.RecordOf] at hn

end Fields

theorem conforms_of_scalar {f : Field} {v : LuaValue} (h : f.type ≠ EType.pto.code) :
    Conforms f v ↔ (EType.ofCode f.type).isSome ∧ if f.array then
      v.type = .table ∧ v.rawlen ≤ 0xffff ∧ ∀ x ∈ v.elements v.rawlen, conformsScalar f.type x
      else conformsScalar f.type v := by
  obtain ⟨name, array, type, childs⟩ := f
  simp only [Conforms, if_neg h]

theorem conforms_of_pto {f : Field} {v : LuaValue} (h : f.type = EType.pto.code) :
    Conforms f v ↔ (EType.ofCode f.type).isSome ∧ if f.array then
      v.type = .table ∧ v.rawlen ≤ 0xffff ∧ ∀ x ∈ v.elements v.rawlen, x.type = .table ∧ ConformsFields f.childs x
      else v.type = .table ∧ ConformsFields f.childs v := by
  obtain ⟨name, array, type, childs⟩ := f
  simp only [Conforms, if_pos h]

section Parsed

variable {δ : Type} {D : Depth δ} {d : δ} {f : Field} {a : Val}

theorem Parsed.extract_conc (h : Parsed D d f a) : UniqueNames f.childs → extract f a.conc = a := by
  induction h with
  | scalar harr ha =>
    intro _
    rw [extract_of_scalar _ (ne_of_lt ha.scalarCode.2), harr, if_neg Bool.false_ne_true, ha.extractScalar_conc]
  | record harr hf _ hnames _ ih =>
    intro hu
    rw [extract_of_pto _ hf, harr, if_neg Bool.false_ne_true,
      extractFields_of_zip hnames fun p hp => by
        rw [getfield_conc_zip hnames hu.nodup hp]
        exact ih p hp (hu.of_mem (List.of_mem_zip hp).1)]
  | scalars harr hc _ hxs =>
    intro _
    rw [extract_of_scalar _ (ne_of_lt hc.2), harr, if_pos rfl, elements_conc_array, List.map_map]
    exact congrArg Val.array ((List.map_congr_left fun x hx => (hxs x hx).extractScalar_conc).trans (List.map_id _))
  | records harr hf _ _ hrec _ ih =>
    intro hu
    rw [extract_of_pto _ hf, harr, if_pos rfl, elements_conc_array, List.map_map]
    refine congrArg Val.array ((List.map_congr_left fun x hx => ?_).trans (List.map_id _))
    have hrx := hrec x hx
    cases x with
    | record fs =>
      exact congrArg Val.record (extractFields_of_zip hrx fun p hp => by
        rw [getfield_conc_zip hrx hu.nodup hp]
        exact ih _ hx p hp (hu.of_mem (List.of_mem_zip hp).1))
    | _ => exact hrx.elim

theorem Parsed.typed (h : Parsed D d f a) : UniqueNames f.childs → Conforms f a.conc → Typed D d f a := by
  induction h with
  | scalar harr ha =>
    intro _ hc
    rw [conforms_of_scalar (ne_of_lt ha.scalarCode.2), harr, if_neg Bool.false_ne_true] at hc
    exact .scalar harr (ha.scalar hc.2)
  | record harr hf hdeep hnames _ ih =>
    intro hu hc
    rw [conforms_of_pto hf, harr, if_neg Bool.false_ne_true] at hc
    refine .record harr hf hdeep hnames fun p hp => ih p hp (hu.of_mem (List.of_mem_zip hp).1) ?_
    rw [← getfield_conc_zip hnames hu.nodup hp]
    exact conformsFields_iff.mp hc.2.2 p.1 (List.of_mem_zip hp).1
  | scalars harr hcode hlen hxs =>
    intro _ hc
    rw [conforms_of_scalar (ne_of_lt hcode.2), harr, if_pos rfl, elements_conc_array] at hc
    exact .scalars harr hcode hlen fun x hx => (hxs x hx).scalar (hc.2.2.2 _ (List.mem_map_of_mem _ hx))
  | records harr hf hdeep hlen hrec _ ih =>
    intro hu hc
    rw [conforms_of_pto hf, harr, if_pos rfl, elements_conc_array] at hc
    refine .records harr hf hdeep hlen hrec fun x hx p hp => ?_
    have hx' := hrec x hx
    cases x with
    | record fs =>
      refine ih _ hx p hp (hu.of_mem (List.of_mem_zip hp).1) ?_
      rw [← getfield_conc_zip hx' hu.nodup hp]
      exact conformsFields_iff.mp (hc.2.2.2 _ (List.mem_map_of_mem _ hx)).2 p.1 (List.of_mem_zip hp).1
    | _ => exact hx'.elim

end Parsed

theorem decodePto_encodePto_decodePto {mem mem' : Nat → UInt8} {ctx : Context} {id : BitVec 64} {P : Protocol}
    {s : Bytes} {arg4 arg4' r : LuaValue} (hP : ctx.getPto (toUInt16 id.toInt) = some P)
    (hu : UniqueNames P.fields) (hs : s.length ≤ 2 ^ 30) (h : decodePto mem ctx id (.string s) arg4 = .ok r)
    (hc : ConformsFields P.fields r) :
    ∃ bytes, encodePto ctx id r = .ok bytes ∧ bytes.length ≤ s.length ∧
      decodePto mem' ctx id (.string bytes) arg4' = .ok r := by
  obtain ⟨P', ptr, size, d, hP', hin, hwalk, hend⟩ := decodePto_eq_ok h
  rw [hP] at hP'
  cases hP'
  cases hin
  have hfit : s.length ≤ INT_MAX := by simp only [INT_MAX]; omega
  have hsize := walk_size hfit hwalk
  obtain ⟨fields, hn, hp, rfl, hle⟩ :=
    Decoder.decodeChildren_sound counter (fun c _ => Decoder.decodeOne_sound counter c 1) _ hwalk
  change ConformsFields P.fields (Val.record fields).conc at hc
  have hext : extractFields P.fields (Val.record fields).conc = fields :=
    extractFields_of_zip hn fun p hp' => by
      rw [getfield_conc_zip hn hu.nodup hp']
      exact (hp p hp').extract_conc (hu.of_mem (List.of_mem_zip hp').1)
  have hall : ∀ p ∈ P.fields.zip (fields.map Prod.snd), Typed counter 1 p.1 p.2 := fun p hp' =>
    (hp p hp').typed (hu.of_mem (List.of_mem_zip hp').1) <| by
      rw [← getfield_conc_zip hn hu.nodup hp']
      exact conformsFields_iff.mp hc p.1 (List.of_mem_zip hp').1
  rw [← hext] at hall
  have ht := forall_zip_extractFields.mp hall
  have hk : KindsFields P.fields (Val.record fields).conc :=
    kindsFields_iff.mpr fun c hc' => kinds_of_conforms c (conformsFields_iff.mp hc c hc')
  have hlen : (Val.record (extractFields P.fields (Val.record fields).conc)).layout.length ≤ s.length := by
    rw [hext]
    simp only [Int.zero_add] at hle
    omega
  obtain ⟨e, he, hb⟩ := Encoder.encodeFields_ok (Val.type_conc_record _) hk ht (hlen.trans hs)
  refine ⟨e.bytes, encodePto_of_encodeFields hP he, hb ▸ hlen, ?_⟩
  rw [hb, decodePto_layout hP ht (by omega), hext]
  rfl

theorem decodePto_encodePto_decodePto_sample :
    sampleContext.getPto (toUInt16 (0 : BitVec 64).toInt) = some sampleProtocol ∧ UniqueNames sampleProtocol.fields ∧
      ([5, 7, 0, 2, 0, 104, 105] : Bytes).length ≤ 2 ^ 30 ∧
      decodePto (fun _ => 0) sampleContext 0 (.string [5, 7, 0, 2, 0, 104, 105]) .nil = .ok sampleDecoded ∧
      ConformsFields sampleProtocol.fields sampleDecoded ∧
      ∃ bytes, encodePto sampleContext 0 sampleDecoded = .ok bytes ∧ bytes.length ≤ 7 ∧
        decodePto (fun _ => 0) sampleContext 0 (.string bytes) .nil = .ok sampleDecoded := by
  have hP : sampleContext.getPto (toUInt16 (0 : BitVec 64).toInt) = some sampleProtocol := rfl
  have h : decodePto (fun _ => 0) sampleContext 0 (.string [5, 7, 0, 2, 0, 104, 105]) .nil = .ok sampleDecoded := rfl
  have hc : ConformsFields sampleProtocol.fields sampleDecoded := by
    simp [ConformsFields, Conforms, conformsScalar, sampleProtocol, sampleDecoded, LuaValue.getfield, LuaValue.lookup]
  exact ⟨hP, uniqueNames_sample, by decide, h, hc, decodePto_encodePto_decodePto hP uniqueNames_sample (by decide) h hc⟩

end PtoCodec
