import PtoCodec.RoundTrip

namespace PtoCodec

namespace Encoder

def Appends (step : Encoder → Except Fault Encoder) (w : Bytes) : Prop :=
  ∀ e : Encoder, e.Valid →
    (e.bytes.length + w.length ≤ 2 ^ 30 → ∃ e', step e = .ok e' ∧ e'.Valid ∧ e'.bytes = e.bytes ++ w) ∧
      (2 ^ 30 < e.bytes.length + w.length → step e = .error (.undefined .signedOverflow))

section Appends

variable {f g : Encoder → Except Fault Encoder} {w w' : Bytes}

theorem Appends.congr (hf : Appends f w) (h : ∀ e, g e = f e) : Appends g w := fun e hv => by
  simpa only [h] using hf e hv

theorem appends_pure : Appends (fun e => .ok e) [] := fun _ hv =>
  ⟨fun _ => ⟨_, rfl, hv, by simp⟩, fun h => absurd hv.length_bytes_le (by simpa using h)⟩

theorem append_appends (data : Bytes) : Appends (·.append data) data := fun _ hv =>
  ⟨append_spec hv, append_overflow hv⟩

theorem Appends.bind (hf : Appends f w) (hg : Appends g w') : Appends (fun e => f e >>= g) (w ++ w') :=
  fun e hv => by
    dsimp only
    rw [List.length_append]
    by_cases hfit : e.bytes.length + w.length ≤ 2 ^ 30
    · obtain ⟨e1, h1, hv1, hb1⟩ := (hf e hv).1 hfit
      have hlen : e1.bytes.length = e.bytes.length + w.length := by simp [hb1]
      obtain ⟨hok, hover⟩ := hg e1 hv1
      rw [hlen] at hok hover
      simp only [h1, ok_bind]
      refine ⟨fun h => ?_, fun h => hover (by omega)⟩
      obtain ⟨e', h', hv', hb'⟩ := hok (by omega)
      exact ⟨e', h', hv', by rw [hb', hb1, List.append_assoc]⟩
    · rw [(hf e hv).2 (by omega)]
      exact ⟨fun h => absurd h (by omega), fun _ => rfl⟩

end Appends

def PutAppends (type : Int) (put : Bool → LuaValue → Encoder → Except Fault Encoder) : Prop :=
  ∀ array x, (extractScalar type x).Scalar type → Appends (put array x) (extractScalar type x).layout

section Puts

variable (f : Field)

theorem putBool_appends : PutAppends EType.bool.code (putBool f) := fun _ _ _ => append_appends _

theorem putShort_appends : PutAppends EType.short.code (putShort f) := fun _ _ _ => append_appends _

theorem putFloat_appends : PutAppends EType.float.code (putFloat f) := fun _ _ _ => append_appends _

theorem putDouble_appends : PutAppends EType.double.code (putDouble f) := fun _ _ _ => append_appends _

theorem putInt_appends : PutAppends EType.int.code (putInt f) := fun _ x hs =>
  (append_appends _).congr fun e => by
    have hr : x.tointeger.toInt.natAbs < 2 ^ 56 := hs.2
    simp only [putInt, MAX_INT]
    rw [if_neg (by omega), appendInt_eq e hr]
    rfl

theorem putString_appends : PutAppends EType.string.code (putString f) := fun _ x hs =>
  ((append_appends _).bind (append_appends _)).congr fun e => by
    have hs : x.tolstring.length ≤ 0xffff := hs.2
    simp only [putString, appendString, toUInt16_of_le hs]
    rw [if_neg (by omega)]

end Puts

section Loops

variable {kind : LuaType} {expect name : String} {v : LuaValue}

theorem encodeMembers_appends {put : LuaValue → Encoder → Except Fault Encoder} {w : LuaValue → Bytes} :
    ∀ {xs : List LuaValue}, (∀ x ∈ xs, Appends (put x) (w x)) → (∀ x ∈ xs, x.type = kind) →
      Appends (encodeMembers kind expect name put xs) (xs.map w).flatten
  | [], _, _ => appends_pure.congr fun _ => rfl
  | x :: xs, hp, hk =>
    ((hp x (List.mem_cons_self x xs)).bind
        (encodeMembers_appends (fun y hy => hp y (List.mem_cons_of_mem x hy))
          fun y hy => hk y (List.mem_cons_of_mem x hy))).congr fun e => by
      simp only [encodeMembers, hk x (List.mem_cons_self x xs), ne_eq, not_true_eq_false, if_false]

theorem beginArray_appends (f : Field) (k : Nat × Encoder → Except Fault Encoder) {w : Bytes} (ht : v.type = .table)
    (hlen : v.rawlen ≤ 0xffff) (hk : Appends (fun e => k (v.rawlen, e)) w) :
    Appends (fun e => beginArray f v e >>= k) (le v.rawlen 2 ++ w) :=
  ((append_appends _).bind hk).congr fun e => by
    simp only [beginArray, ht, ne_eq, not_true_eq_false, if_false]
    rw [if_neg (by omega)]
    cases e.append (le v.rawlen 2) <;> rfl

end Loops

section Walk

variable {δ : Type} (D : Depth δ) {f : Field} {v : LuaValue}

theorem encodeScalar_appends {kind : LuaType} {expect : String} {type : Int}
    {put : Field → Bool → LuaValue → Encoder → Except Fault Encoder} {d : δ}
    (hp : PutAppends type (put f)) (hf : f.type = type) (hc : scalarCode type)
    (hkind : scalarKind type = some kind) (hk : Kinds f v) (ht : Typed D d f (extract f v)) :
    Appends (encodeScalar kind expect put f v) (extract f v).layout := by
  subst hf
  have hne := ne_of_lt hc.2
  rw [extract_of_scalar v hne] at ht ⊢
  rw [kinds_of_scalar hne] at hk
  cases harr : f.array
  · simp only [harr, Bool.false_eq_true, if_false] at ht hk ⊢
    refine (hp false v (ht.scalar_of harr hne)).congr fun e => ?_
    simp only [encodeScalar, harr, Bool.false_eq_true, if_false, Option.some.inj (hkind.symm.trans hk),
      ne_eq, not_true_eq_false]
  · simp only [harr, if_true] at ht hk ⊢
    obtain ⟨hlen, hs⟩ := ht.scalars_of hne
    rw [List.length_map, LuaValue.length_elements] at hlen
    rw [Val.layout_array, List.length_map, LuaValue.length_elements, List.map_map, Function.comp_def]
    refine (beginArray_appends f (fun p => encodeMembers kind expect f.name (put f true) (v.elements p.1) p.2)
      hk.1 hlen (encodeMembers_appends (fun x hx => hp true x (hs _ (List.mem_map_of_mem _ hx)))
      fun x hx => Option.some.inj ((hk.2 x hx).symm.trans hkind))).congr fun e => ?_
    simp only [encodeScalar, harr, if_true]

theorem encodePto_appends {children : LuaValue → δ → Encoder → Except Fault Encoder} {d : δ}
    (hf : f.type = EType.pto.code)
    (hch : ∀ x, x.type = .table → KindsFields f.childs x →
      (∀ c ∈ f.childs, Typed D (D.enter d f) c (extract c (x.getfield c.name))) →
      Appends (children x (D.enter d f)) (Val.record (extractFields f.childs x)).layout)
    (hk : Kinds f v) (ht : Typed D d f (extract f v)) :
    Appends (encodePto D f children v d) (extract f v).layout := by
  rw [extract_of_pto v hf] at ht ⊢
  rw [kinds_of_pto hf] at hk
  cases harr : f.array
  · simp only [harr, Bool.false_eq_true, if_false] at ht hk ⊢
    obtain ⟨hdeep, hts⟩ := ht.record_of
    refine (hch v hk.1 hk.2 (forall_zip_extractFields.mp hts)).congr fun e => ?_
    simp only [encodePto, hdeep, hk.1, harr, Bool.false_eq_true, if_false, ne_eq, not_true_eq_false]
  · simp only [harr, if_true] at ht hk ⊢
    obtain ⟨hdeep, hlen, hts⟩ := ht.records_of hf
    rw [List.length_map, LuaValue.length_elements] at hlen
    rw [Val.layout_array, List.length_map, LuaValue.length_elements, List.map_map, Function.comp_def]
    refine (beginArray_appends f (fun p => encodeRecords f.name (fun x e => children x (D.enter d f) e) (v.elements p.1) p.2)
      hk.1 hlen (encodeMembers_appends (fun x hx => hch x (hk.2 x hx).1 (hk.2 x hx).2
        (forall_zip_extractFields.mp (hts _ (List.mem_map_of_mem _ hx))))
      fun x hx => (hk.2 x hx).1)).congr fun e => ?_
    simp only [encodePto, hdeep, hk.1, harr, if_true, Bool.false_eq_true, if_false, ne_eq,
      not_true_eq_false, encodeRecords]

theorem encodeChildren_appends {d : δ} :
    ∀ {cs : List Field} {x : LuaValue},
      (∀ c ∈ cs, ∀ v, Kinds c v → Typed D d c (extract c v) → Appends (encodeOne D c v d) (extract c v).layout) →
      KindsFields cs x → (∀ c ∈ cs, Typed D d c (extract c (x.getfield c.name))) →
      Appends (encodeChildren D cs x d) (Val.record (extractFields cs x)).layout
  | [], _, _, _, _ => appends_pure.congr fun _ => rfl
  | c :: cs, _, hc, hk, ht =>
    ((hc c (List.mem_cons_self c cs) _ hk.1 (ht c (List.mem_cons_self c cs))).bind
        (encodeChildren_appends (fun c' hc' => hc c' (List.mem_cons_of_mem c hc')) hk.2
          fun c' hc' => ht c' (List.mem_cons_of_mem c hc'))).congr fun _ => rfl

theorem encodeOne_appends (f : Field) :
    ∀ v d, Kinds f v → Typed D d f (extract f v) → Appends (encodeOne D f v d) (extract f v).layout := by
  induction f using Field.induction with
  | mk name array type childs ih =>
    intro v d hk ht e hv
    cases hc : EType.ofCode type with
    | none => have := ht.ofCode_isSome; simp [hc] at this
    | some t =>
      have hf := EType.ofCode_eq_some.mp hc
      simp only [encodeOne, hc]
      cases t
      case bool => exact encodeScalar_appends D (putBool_appends _) hf (scalarCode_code (by decide)) rfl hk ht e hv
      case short => exact encodeScalar_appends D (putShort_appends _) hf (scalarCode_code (by decide)) rfl hk ht e hv
      case int => exact encodeScalar_appends D (putInt_appends _) hf (scalarCode_code (by decide)) rfl hk ht e hv
      case float => exact encodeScalar_appends D (putFloat_appends _) hf (scalarCode_code (by decide)) rfl hk ht e hv
      case double =>
        exact encodeScalar_appends D (putDouble_appends _) hf (scalarCode_code (by decide)) rfl hk ht e hv
      case string =>
        exact encodeScalar_appends D (putString_appends _) hf (scalarCode_code (by decide)) rfl hk ht e hv
      case pto =>
        exact encodePto_appends D hf (fun x _ hks hts => encodeChildren_appends D (fun c hc v => ih c hc v _) hks hts)
          hk ht e hv

end Walk

theorem encodeFields_appends {v : LuaValue} {fs : List Field} (hk : KindsFields fs v)
    (ht : ∀ c ∈ fs, Typed counter 1 c (extract c (v.getfield c.name))) :
    Appends (encodeFields v fs) (Val.record (extractFields fs v)).layout := by
  cases fs with
  | nil => exact appends_pure.congr fun _ => rfl
  | cons c cs =>
    obtain ⟨arr, hash, rfl⟩ : ∃ arr hash, v = .table arr hash := by
      cases v <;> first | exact ⟨_, _, rfl⟩ | exact absurd hk.1 (not_kinds_nil_function (.inl rfl))
    rw [encodeFields_table]
    exact encodeChildren_appends counter (fun c _ v => encodeOne_appends counter c v 1) hk ht

end Encoder

theorem encodePto_eq_ok_iff {ctx : Context} {id : BitVec 64} {P : Protocol} {v : LuaValue} {bytes : Bytes}
    (hP : ctx.getPto (toUInt16 id.toInt) = some P) :
    encodePto ctx id v = .ok bytes ↔
      KindsFields P.fields v ∧ (∀ c ∈ P.fields, Typed counter 1 c (extract c (v.getfield c.name))) ∧
        bytes = (Val.record (extractFields P.fields v)).layout ∧ bytes.length ≤ 2 ^ 30 := by
  constructor
  · intro h
    obtain ⟨P', e, hP', he, rfl⟩ := encodePto_eq_ok h
    cases hP.symm.trans hP'
    obtain ⟨hv, hb, ht, hk⟩ := Encoder.encodeFields_sound he
    exact ⟨hk, ht, hb, hv.length_bytes_le⟩
  · rintro ⟨hk, ht, rfl, hroom⟩
    obtain ⟨e, he, -, hb⟩ := (Encoder.encodeFields_appends hk ht _ Encoder.valid_init).1 (by simpa using hroom)
    rw [encodePto_of_encodeFields hP he, hb, Encoder.bytes_init, List.nil_append]

theorem encodePto_eq_ok_iff_sample :
    sampleContext.getPto (toUInt16 (0 : BitVec 64).toInt) = some sampleProtocol ∧
      (encodePto sampleContext 0 sampleRecord = .ok [3, 7, 2, 0, 104, 105] ↔
        KindsFields sampleProtocol.fields sampleRecord ∧
          (∀ c ∈ sampleProtocol.fields, Typed counter 1 c (extract c (sampleRecord.getfield c.name))) ∧
          [3, 7, 2, 0, 104, 105] = (Val.record (extractFields sampleProtocol.fields sampleRecord)).layout ∧
          ([3, 7, 2, 0, 104, 105] : Bytes).length ≤ 2 ^ 30) :=
  ⟨rfl, encodePto_eq_ok_iff rfl⟩

theorem encodePto_capacity {ctx : Context} {id : BitVec 64} {P : Protocol} {v : LuaValue}
    (hP : ctx.getPto (toUInt16 id.toInt) = some P) (hh : heightList P.fields < MAX_DEPTH)
    (hc : ConformsFields P.fields v) :
    encodePto ctx id v = if (Val.record (extractFields P.fields v)).layout.length ≤ 2 ^ 30
      then .ok (Val.record (extractFields P.fields v)).layout else .error (.undefined .signedOverflow) := by
  have hc' := conformsFields_iff.mp hc
  have hk : KindsFields P.fields v := kindsFields_iff.mpr fun c h => kinds_of_conforms c (hc' c h)
  have ht : ∀ c ∈ P.fields, Typed counter 1 c (extract c (v.getfield c.name)) := fun c h =>
    typed_of_conforms c (hc' c h) (by have := height_le_heightList h; simp only [MAX_DEPTH] at *; omega)
  obtain ⟨hok, hover⟩ := Encoder.encodeFields_appends hk ht _ Encoder.valid_init
  simp only [Encoder.bytes_init, List.length_nil, Nat.zero_add, List.nil_append] at hok hover
  split_ifs with hroom
  · obtain ⟨e, he, -, hb⟩ := hok hroom
    rw [encodePto_of_encodeFields hP he, hb]
  · simp only [encodePto, hP, hover (by omega)]

theorem encodePto_capacity_sample :
    sampleContext.getPto (toUInt16 (0 : BitVec 64).toInt) = some sampleProtocol ∧
      heightList sampleProtocol.fields < MAX_DEPTH ∧ ConformsFields sampleProtocol.fields sampleRecord ∧
      encodePto sampleContext 0 sampleRecord =
        if (Val.record (extractFields sampleProtocol.fields sampleRecord)).layout.length ≤ 2 ^ 30
        then .ok (Val.record (extractFields sampleProtocol.fields sampleRecord)).layout
        else .error (.undefined .signedOverflow) := by
  have hc : ConformsFields sampleProtocol.fields sampleRecord := by
    simp [ConformsFields, Conforms, conformsScalar, sampleProtocol, sampleRecord, LuaValue.getfield,
      LuaValue.lookup]
  exact ⟨rfl, by decide, hc, encodePto_capacity rfl (by decide) hc⟩

theorem decodePto_encodePto {mem : Nat → UInt8} {ctx : Context} {id : BitVec 64} {P : Protocol}
    {record arg4 : LuaValue} {bytes : Bytes} (hP : ctx.getPto (toUInt16 id.toInt) = some P)
    (h : encodePto ctx id record = .ok bytes) :
    decodePto mem ctx id (.string bytes) arg4 = .ok (Val.record (extractFields P.fields record)).conc := by
  obtain ⟨P', e, hP', he, rfl⟩ := encodePto_eq_ok h
  cases hP.symm.trans hP'
  obtain ⟨hv, hb, ht, -⟩ := Encoder.encodeFields_sound he
  have hlen := hv.length_bytes_le
  rw [hb] at hlen ⊢
  exact decodePto_layout hP ht (by simp only [INT_MAX]; omega)

theorem decodePto_encodePto_sample :
    sampleContext.getPto (toUInt16 (0 : BitVec 64).toInt) = some sampleProtocol ∧
      encodePto sampleContext 0 sampleRecord = .ok [3, 7, 2, 0, 104, 105] ∧
      decodePto (fun _ => 0) sampleContext 0 (.string [3, 7, 2, 0, 104, 105]) .nil =
        .ok (Val.record (extractFields sampleProtocol.fields sampleRecord)).conc :=
  ⟨rfl, rfl, decodePto_encodePto rfl rfl⟩

end PtoCodec
