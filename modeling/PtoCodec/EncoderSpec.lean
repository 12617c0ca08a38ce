import PtoCodec.Buffer

namespace PtoCodec

def extractScalar (type : Int) (x : LuaValue) : Val :=
  match EType.ofCode type with
  | some .bool => .bool x.toboolean
  | some .short => .short (Encoder.shortOf x.tointeger)
  | some .int => .int x.tointeger
  | some .float => .float (narrow x.tonumber)
  | some .double => .double x.tonumber
  | some .string => .string x.tolstring
  | _ => .record []

mutual

def extract (f : Field) (v : LuaValue) : Val :=
  match f with
  | ⟨_, array, type, childs⟩ =>
    let elem := fun x => if type = EType.pto.code then Val.record (extractFields childs x)
      else extractScalar type x
    if array then .array ((v.elements v.rawlen).map elem) else elem v

def extractFields : List Field → LuaValue → List (String × Val)
  | [], _ => []
  | c :: cs, v => (c.name, extract c (v.getfield c.name)) :: extractFields cs v

end

def scalarKind (type : Int) : Option LuaType :=
  match EType.ofCode type with
  | some .bool => some .boolean
  | some .string => some .string
  | some .pto | none => none
  | some _ => some .number

mutual

def Kinds (f : Field) (v : LuaValue) : Prop :=
  match f with
  | ⟨_, array, type, childs⟩ =>
    let elem := fun x : LuaValue => if type = EType.pto.code then x.type = .table ∧ KindsFields childs x
      else scalarKind type = some x.type
    if array then v.type = .table ∧ ∀ x ∈ v.elements v.rawlen, elem x else elem v

def KindsFields : List Field → LuaValue → Prop
  | [], _ => True
  | c :: cs, v => Kinds c (v.getfield c.name) ∧ KindsFields cs v

end

@[simp] theorem extractFields_names (childs : List Field) (v : LuaValue) :
    (extractFields childs v).map Prod.fst = childs.map Field.name := by
  induction childs with
  | nil => rfl
  | cons c cs ih => simp [extractFields, ih]

theorem zip_extractFields (childs : List Field) (v : LuaValue) :
    childs.zip ((extractFields childs v).map Prod.snd) =
      childs.map fun c => (c, extract c (v.getfield c.name)) := by
  induction childs with
  | nil => rfl
  | cons c cs ih => simp [extractFields, ih]

theorem extract_of_scalar {f : Field} (v : LuaValue) (h : f.type ≠ EType.pto.code) :
    extract f v = if f.array then .array ((v.elements v.rawlen).map (extractScalar f.type))
      else extractScalar f.type v := by
  obtain ⟨name, array, type, childs⟩ := f
  simp only [extract, if_neg h]

theorem extract_of_pto {f : Field} (v : LuaValue) (h : f.type = EType.pto.code) :
    extract f v = if f.array then .array ((v.elements v.rawlen).map fun x => .record (extractFields f.childs x))
      else .record (extractFields f.childs v) := by
  obtain ⟨name, array, type, childs⟩ := f
  simp only [extract, if_pos h]

theorem kinds_of_scalar {f : Field} {v : LuaValue} (h : f.type ≠ EType.pto.code) :
    Kinds f v ↔ if f.array then v.type = .table ∧ ∀ x ∈ v.elements v.rawlen, scalarKind f.type = some x.type
      else scalarKind f.type = some v.type := by
  obtain ⟨name, array, type, childs⟩ := f
  simp only [Kinds, if_neg h]

theorem kinds_of_pto {f : Field} {v : LuaValue} (h : f.type = EType.pto.code) :
    Kinds f v ↔ if f.array then v.type = .table ∧ ∀ x ∈ v.elements v.rawlen, x.type = .table ∧ KindsFields f.childs x
      else v.type = .table ∧ KindsFields f.childs v := by
  obtain ⟨name, array, type, childs⟩ := f
  simp only [Kinds, if_pos h]

theorem forall_zip_extractFields {childs : List Field} {x : LuaValue} {P : Field → Val → Prop} :
    (∀ p ∈ childs.zip ((extractFields childs x).map Prod.snd), P p.1 p.2) ↔
      ∀ c ∈ childs, P c (extract c (x.getfield c.name)) := by
  simp [zip_extractFields]

theorem scalarCode_code {t : EType} (h : t ≠ .pto) : scalarCode t.code := by
  cases t <;> simp_all [scalarCode, EType.code]

namespace Encoder

theorem varintLength_eq (n : Nat) : varintLength n = varintLen n := by
  unfold varintLength varintLen
  simp only [List.range', List.find?_cons, List.find?_nil, Nat.reduceMul, Nat.reducePow, Nat.reduceAdd]
  have : n < 256 ∨ (256 ≤ n ∧ n < 65536) ∨ (65536 ≤ n ∧ n < 16777216) ∨ (16777216 ≤ n ∧ n < 4294967296) ∨
    (4294967296 ≤ n ∧ n < 1099511627776) ∨ (1099511627776 ≤ n ∧ n < 281474976710656) ∨
    (281474976710656 ≤ n ∧ n < 72057594037927936) ∨ 72057594037927936 ≤ n := by omega
  rcases this with h | h | h | h | h | h | h | h <;>
    simp (disch := omega) only [decide_eq_true, decide_eq_false, if_pos, if_neg, Option.getD_some, Option.getD_none]

theorem varintLength_least {n l : Nat} (hl : 1 ≤ l) (h : n < 2 ^ (8 * l)) : varintLength n ≤ l := by
  have key : ∀ k, 2 ^ (8 * k) ≤ n → k < l := fun k hk => by
    have := (Nat.pow_lt_pow_iff_right (by norm_num : 1 < 2)).mp (lt_of_le_of_lt hk h); omega
  unfold varintLength
  repeat' split
  all_goals first | exact hl | exact key _ (by simp only [Nat.reduceMul, Nat.reducePow]; omega)

theorem appendInt_eq (e : Encoder) {val : BitVec 64} (h : val.toInt.natAbs < 2 ^ 56) :
    e.appendInt val = e.append (varint7 val.toInt) := by
  unfold appendInt varint7
  by_cases h0 : val.toInt = 0
  · simp only [h0, if_true]
  · have hmin : val.toInt ≠ -2 ^ 63 := by omega
    simp only [h0, hmin, if_false, varintLength_eq]
    congr 3
    split_ifs <;> omega

theorem toUInt16_of_le {n : Nat} (h : n ≤ 0xffff) : toUInt16 n = n := by
  simp only [toUInt16]; omega

section Append

variable {e e' : Encoder} {str : Bytes}

theorem appendString_sound (hv : e.Valid) (h : e.appendString str = .ok e') :
    e'.Valid ∧ e'.bytes = e.bytes ++ (le (toUInt16 str.length) 2 ++ str) := by
  obtain ⟨e1, h1, h⟩ := bind_eq_ok.mp h
  obtain ⟨hv1, hb1⟩ := append_sound hv h1
  obtain ⟨hv', hb'⟩ := append_sound hv1 h
  exact ⟨hv', by rw [hb', hb1, List.append_assoc]⟩

theorem appendString_spec (hv : e.Valid) (hs : str.length ≤ 0xffff)
    (h : e.bytes.length + (2 + str.length) ≤ 2 ^ 30) :
    ∃ e', e.appendString str = .ok e' ∧ e'.Valid ∧ e'.bytes = e.bytes ++ (le str.length 2 ++ str) := by
  obtain ⟨e1, h1, hv1, hb1⟩ :=
    append_spec hv (show e.bytes.length + (le (toUInt16 str.length) 2).length ≤ 2 ^ 30 by simp; omega)
  obtain ⟨e2, h2, hv2, hb2⟩ := append_spec hv1 (show e1.bytes.length + str.length ≤ 2 ^ 30 by simp [hb1]; omega)
  exact ⟨e2, by simp [appendString, h1, h2], hv2, by rw [hb2, hb1, toUInt16_of_le hs, List.append_assoc]⟩

end Append

structure PutSpec (type : Int) (put : Bool → LuaValue → Encoder → Except Fault Encoder) : Prop where
  sound : ∀ {array x e e'}, e.Valid → put array x e = .ok e' →
    e'.Valid ∧ e'.bytes = e.bytes ++ (extractScalar type x).layout ∧ (extractScalar type x).Scalar type
  complete : ∀ {array x e}, e.Valid → (extractScalar type x).Scalar type →
    e.bytes.length + (extractScalar type x).layout.length ≤ 2 ^ 30 →
    ∃ e', put array x e = .ok e' ∧ e'.Valid ∧ e'.bytes = e.bytes ++ (extractScalar type x).layout

theorem PutSpec.of_append {type : Int} {put : Bool → LuaValue → Encoder → Except Fault Encoder}
    (hput : ∀ array x e, put array x e = e.append (extractScalar type x).layout)
    (hs : ∀ x, (extractScalar type x).Scalar type) : PutSpec type put where
  sound hv h := by rw [hput] at h; exact ⟨(append_sound hv h).1, (append_sound hv h).2, hs _⟩
  complete hv _ hroom := by rw [hput]; exact append_spec hv hroom

section Puts

variable (f : Field)

theorem putBool_spec : PutSpec EType.bool.code (putBool f) :=
  PutSpec.of_append (fun _ _ _ => rfl) fun _ => rfl

theorem putShort_spec : PutSpec EType.short.code (putShort f) :=
  PutSpec.of_append (fun _ _ _ => rfl) fun _ => rfl

theorem putFloat_spec : PutSpec EType.float.code (putFloat f) :=
  PutSpec.of_append (fun _ _ _ => rfl) fun _ => rfl

theorem putDouble_spec : PutSpec EType.double.code (putDouble f) :=
  PutSpec.of_append (fun _ _ _ => rfl) fun _ => rfl

theorem putInt_spec : PutSpec EType.int.code (putInt f) where
  sound {array x e e'} hv h := by
    simp only [putInt] at h
    split at h
    · cases h
    · have hr : x.tointeger.toInt.natAbs < 2 ^ 56 := by simp only [MAX_INT] at *; omega
      rw [appendInt_eq e hr] at h
      exact ⟨(append_sound hv h).1, (append_sound hv h).2, rfl, hr⟩
  complete {array x e} hv hs hroom := by
    have hr : x.tointeger.toInt.natAbs < 2 ^ 56 := hs.2
    simp only [putInt, MAX_INT]
    rw [if_neg (by omega), appendInt_eq e hr]
    exact append_spec hv hroom

theorem putString_spec : PutSpec EType.string.code (putString f) where
  sound {array x e e'} hv h := by
    simp only [putString] at h
    split at h
    · cases h
    · have hs : x.tolstring.length ≤ 0xffff := by omega
      obtain ⟨hv', hb'⟩ := appendString_sound hv h
      exact ⟨hv', by rw [hb', toUInt16_of_le hs]; rfl, rfl, hs⟩
  complete {array x e} hv hs hroom := by
    simp only [putString]
    rw [if_neg (by have := hs.2; omega)]
    exact appendString_spec hv hs.2 (by simpa [extractScalar, Val.layout] using hroom)

end Puts

section Loops

variable {kind : LuaType} {expect name : String} {put : LuaValue → Encoder → Except Fault Encoder}
  {w : LuaValue → Bytes} {e e' : Encoder}

theorem encodeMembers_sound {P : LuaValue → Prop}
    (hput : ∀ {x e e'}, e.Valid → put x e = .ok e' → e'.Valid ∧ e'.bytes = e.bytes ++ w x ∧ P x) :
    ∀ {xs : List LuaValue} {e e'}, e.Valid → encodeMembers kind expect name put xs e = .ok e' →
      e'.Valid ∧ e'.bytes = e.bytes ++ (xs.map w).flatten ∧ ∀ x ∈ xs, x.type = kind ∧ P x
  | [], _, _, hv, h => by cases h; simp [hv]
  | x :: xs, e, e', hv, h => by
    simp only [encodeMembers] at h
    split at h
    · cases h
    rename_i hkind
    obtain ⟨e1, h1, h⟩ := bind_eq_ok.mp h
    obtain ⟨hv1, hb1, hp1⟩ := hput hv h1
    obtain ⟨hv', hb', hp'⟩ := encodeMembers_sound hput hv1 h
    exact ⟨hv', by simp [hb', hb1], List.forall_mem_cons.mpr ⟨⟨not_not.mp hkind, hp1⟩, hp'⟩⟩

theorem encodeMembers_ok {xs : List LuaValue}
    (hput : ∀ x ∈ xs, ∀ {e}, e.Valid → e.bytes.length + (w x).length ≤ 2 ^ 30 →
      ∃ e', put x e = .ok e' ∧ e'.Valid ∧ e'.bytes = e.bytes ++ w x)
    (hk : ∀ x ∈ xs, x.type = kind) (hv : e.Valid)
    (hroom : e.bytes.length + ((xs.map w).flatten).length ≤ 2 ^ 30) :
    ∃ e', encodeMembers kind expect name put xs e = .ok e' ∧ e'.Valid ∧
      e'.bytes = e.bytes ++ (xs.map w).flatten := by
  induction xs generalizing e with
  | nil => exact ⟨e, rfl, hv, by simp⟩
  | cons x xs ih =>
    simp only [List.map_cons, List.flatten_cons, List.length_append] at hroom
    obtain ⟨e1, h1, hv1, hb1⟩ := hput x (List.mem_cons_self x xs) hv (by omega)
    obtain ⟨e2, h2, hv2, hb2⟩ := ih (fun y hy => hput y (List.mem_cons_of_mem x hy))
      (fun y hy => hk y (List.mem_cons_of_mem x hy)) hv1 (by simp only [hb1, List.length_append]; omega)
    refine ⟨e2, ?_, hv2, by simp [hb2, hb1]⟩
    simp only [encodeMembers, hk x (List.mem_cons_self x xs), ne_eq, not_true_eq_false, if_false, h1,
      ok_bind, h2]

end Loops

section Walk

variable {δ : Type} (D : Depth δ) {e e' : Encoder} {f : Field} {v : LuaValue}

theorem beginArray_sound {size : Nat} (hv : e.Valid) (h : beginArray f v e = .ok (size, e')) :
    v.type = .table ∧ size = v.rawlen ∧ v.rawlen ≤ 0xffff ∧ e'.Valid ∧
      e'.bytes = e.bytes ++ le v.rawlen 2 := by
  simp only [beginArray] at h
  split at h
  · cases h
  rename_i htable
  split at h
  · cases h
  obtain ⟨e1, h1, h⟩ := map_eq_ok.mp h
  cases h
  exact ⟨not_not.mp htable, rfl, by omega, append_sound hv h1⟩

theorem beginArray_ok (hv : e.Valid) (ht : v.type = .table) (hlen : v.rawlen ≤ 0xffff)
    (hroom : e.bytes.length + 2 ≤ 2 ^ 30) :
    ∃ e', beginArray f v e = .ok (v.rawlen, e') ∧ e'.Valid ∧ e'.bytes = e.bytes ++ le v.rawlen 2 := by
  obtain ⟨e', h', hv', hb'⟩ :=
    append_spec hv (show e.bytes.length + (le v.rawlen 2).length ≤ 2 ^ 30 by simp; omega)
  refine ⟨e', ?_, hv', hb'⟩
  simp only [beginArray, ht, ne_eq, not_true_eq_false, if_false, h']
  rw [if_neg (by omega)]; rfl

theorem encodeScalar_sound {kind : LuaType} {expect : String} {type : Int}
    {put : Field → Bool → LuaValue → Encoder → Except Fault Encoder} (d : δ)
    (hp : PutSpec type (put f)) (hf : f.type = type) (hc : scalarCode type)
    (hkind : scalarKind type = some kind) (hv : e.Valid) (h : encodeScalar kind expect put f v e = .ok e') :
    e'.Valid ∧ e'.bytes = e.bytes ++ (extract f v).layout ∧ Typed D d f (extract f v) ∧ Kinds f v := by
  subst hf
  have hne := ne_of_lt hc.2
  rw [extract_of_scalar v hne, kinds_of_scalar hne]
  simp only [encodeScalar] at h
  split at h
  · rename_i harr
    obtain ⟨⟨size, e1⟩, h1, h⟩ := bind_eq_ok.mp h
    obtain ⟨htable, rfl, hlen, hv1, hb1⟩ := beginArray_sound hv h1
    obtain ⟨hv', hb', hs⟩ := encodeMembers_sound (fun hv h => hp.sound hv h) hv1 h
    simp only [harr, if_true]
    refine ⟨hv', by simp [Val.layout, hb', hb1]; rfl, .scalars harr hc (by simpa using hlen) ?_,
      htable, fun x hx => hkind.trans (congrArg some (hs x hx).1).symm⟩
    simpa using fun x hx => (hs x hx).2
  · rename_i harr
    split at h
    · cases h
    rename_i hkv
    obtain ⟨hv', hb', hs⟩ := hp.sound hv h
    simp only [harr, Bool.false_eq_true, if_false]
    exact ⟨hv', hb', .scalar (by simpa using harr) hs, by rw [hkind, not_not.mp hkv]⟩

theorem encodeScalar_ok {kind : LuaType} {expect : String} {type : Int}
    {put : Field → Bool → LuaValue → Encoder → Except Fault Encoder} {d : δ}
    (hp : PutSpec type (put f)) (hf : f.type = type) (hc : scalarCode type)
    (hkind : scalarKind type = some kind) (hk : Kinds f v) (ht : Typed D d f (extract f v))
    (hv : e.Valid) (hroom : e.bytes.length + (extract f v).layout.length ≤ 2 ^ 30) :
    ∃ e', encodeScalar kind expect put f v e = .ok e' ∧ e'.Valid ∧
      e'.bytes = e.bytes ++ (extract f v).layout := by
  subst hf
  have hne := ne_of_lt hc.2
  rw [extract_of_scalar v hne] at ht hroom ⊢
  rw [kinds_of_scalar hne] at hk
  cases harr : f.array
  · simp only [harr, Bool.false_eq_true, if_false] at ht hroom hk ⊢
    obtain ⟨e', h', hv', hb'⟩ := @PutSpec.complete _ _ hp false v e hv (ht.scalar_of harr hne) hroom
    refine ⟨e', ?_, hv', hb'⟩
    simp only [encodeScalar, harr, Bool.false_eq_true, if_false, Option.some.inj (hkind.symm.trans hk),
      ne_eq, not_true_eq_false, h']
  · simp only [harr, if_true] at ht hroom hk ⊢
    obtain ⟨hlen, hs⟩ := ht.scalars_of hne
    simp only [Val.layout, Val.layoutList_eq, List.length_append, length_le, List.map_map,
      List.length_map, LuaValue.length_elements] at hroom hlen
    obtain ⟨e1, h1, hv1, hb1⟩ : ∃ e1, beginArray f v e = .ok (v.rawlen, e1) ∧ e1.Valid ∧
        e1.bytes = e.bytes ++ le v.rawlen 2 := beginArray_ok hv hk.1 hlen (by omega)
    have hput : ∀ x ∈ v.elements v.rawlen, ∀ {e : Encoder}, e.Valid →
        e.bytes.length + (extractScalar f.type x).layout.length ≤ 2 ^ 30 →
        ∃ e', put f true x e = .ok e' ∧ e'.Valid ∧ e'.bytes = e.bytes ++ (extractScalar f.type x).layout :=
      fun x hx _ hv hroom => @PutSpec.complete _ _ hp true x _ hv (hs _ (List.mem_map_of_mem _ hx)) hroom
    obtain ⟨e2, h2, hv2, hb2⟩ : ∃ e', encodeMembers kind expect f.name (put f true) (v.elements v.rawlen) e1 = .ok e' ∧
        e'.Valid ∧ e'.bytes = e1.bytes ++ ((v.elements v.rawlen).map fun x => (extractScalar f.type x).layout).flatten :=
      encodeMembers_ok hput (fun x hx => Option.some.inj ((hk.2 x hx).symm.trans hkind)) hv1
        (by simp only [hb1, List.length_append, length_le]; simp only [Function.comp_def] at hroom; omega)
    refine ⟨e2, by simp only [encodeScalar, harr, if_true, h1, ok_bind, h2], hv2, ?_⟩
    simp [Val.layout, hb2, hb1]; rfl

theorem encodePto_sound {children : LuaValue → δ → Encoder → Except Fault Encoder} {d : δ}
    (hf : f.type = EType.pto.code)
    (hch : ∀ {x : LuaValue} {d' : δ} {e e' : Encoder}, e.Valid → children x d' e = .ok e' →
      e'.Valid ∧ e'.bytes = e.bytes ++ (Val.record (extractFields f.childs x)).layout ∧
        (∀ c ∈ f.childs, Typed D d' c (extract c (x.getfield c.name))) ∧ KindsFields f.childs x)
    (hv : e.Valid) (h : encodePto D f children v d e = .ok e') :
    e'.Valid ∧ e'.bytes = e.bytes ++ (extract f v).layout ∧ Typed D d f (extract f v) ∧ Kinds f v := by
  rw [extract_of_pto v hf, kinds_of_pto hf]
  simp only [encodePto, encodeRecords] at h
  split at h
  · cases h
  rename_i hdeep
  split at h
  · cases h
  rename_i htable
  split at h
  · rename_i harr
    obtain ⟨⟨size, e1⟩, h1, h⟩ := bind_eq_ok.mp h
    obtain ⟨-, rfl, hlen, hv1, hb1⟩ := beginArray_sound hv h1
    obtain ⟨hv', hb', hs⟩ := encodeMembers_sound (fun hv h => hch hv h) hv1 h
    simp only [harr, if_true]
    refine ⟨hv', by rw [hb', hb1, Val.layout_array]; simp; rfl,
      .records harr hf (by simpa using hdeep) (by simpa using hlen) (by simp [Val.RecordOf]) ?_,
      not_not.mp htable, fun x hx => ⟨(hs x hx).1, (hs x hx).2.2⟩⟩
    simp only [List.forall_mem_map, Val.values]
    exact fun x hx => forall_zip_extractFields.mpr (hs x hx).2.1
  · rename_i harr
    obtain ⟨hv', hb', hs, hks⟩ := hch hv h
    simp only [harr, if_false]
    exact ⟨hv', hb', .record (by simpa using harr) hf (by simpa using hdeep) (by simp [Val.RecordOf])
      (forall_zip_extractFields.mpr hs), not_not.mp htable, hks⟩

theorem encodePto_ok {children : LuaValue → δ → Encoder → Except Fault Encoder} {d : δ}
    (hf : f.type = EType.pto.code)
    (hch : ∀ x, x.type = .table → KindsFields f.childs x →
      (∀ c ∈ f.childs, Typed D (D.enter d f) c (extract c (x.getfield c.name))) → ∀ {e : Encoder}, e.Valid →
      e.bytes.length + (Val.record (extractFields f.childs x)).layout.length ≤ 2 ^ 30 →
      ∃ e', children x (D.enter d f) e = .ok e' ∧ e'.Valid ∧
        e'.bytes = e.bytes ++ (Val.record (extractFields f.childs x)).layout)
    (hk : Kinds f v) (ht : Typed D d f (extract f v)) (hv : e.Valid)
    (hroom : e.bytes.length + (extract f v).layout.length ≤ 2 ^ 30) :
    ∃ e', encodePto D f children v d e = .ok e' ∧ e'.Valid ∧ e'.bytes = e.bytes ++ (extract f v).layout := by
  rw [extract_of_pto v hf] at ht hroom ⊢
  rw [kinds_of_pto hf] at hk
  cases harr : f.array
  · simp only [harr, Bool.false_eq_true, if_false] at ht hroom hk ⊢
    obtain ⟨hdeep, hts⟩ := ht.record_of
    obtain ⟨e', h', hv', hb'⟩ := hch v hk.1 hk.2 (forall_zip_extractFields.mp hts) hv hroom
    refine ⟨e', ?_, hv', hb'⟩
    simp only [encodePto, hdeep, hk.1, harr, Bool.false_eq_true, if_false, ne_eq, not_true_eq_false, h']
  · simp only [harr, if_true] at ht hroom hk ⊢
    obtain ⟨hdeep, hlen, hts⟩ := ht.records_of hf
    simp only [Val.layout, Val.layoutList_eq, List.length_append, length_le, List.map_map,
      List.length_map, LuaValue.length_elements] at hroom hlen
    obtain ⟨e1, h1, hv1, hb1⟩ : ∃ e1, beginArray f v e = .ok (v.rawlen, e1) ∧ e1.Valid ∧
        e1.bytes = e.bytes ++ le v.rawlen 2 := beginArray_ok hv hk.1 hlen (by omega)
    have hput : ∀ x ∈ v.elements v.rawlen, ∀ {e : Encoder}, e.Valid →
        e.bytes.length + (Val.record (extractFields f.childs x)).layout.length ≤ 2 ^ 30 →
        ∃ e', children x (D.enter d f) e = .ok e' ∧ e'.Valid ∧
          e'.bytes = e.bytes ++ (Val.record (extractFields f.childs x)).layout := fun x hx =>
      hch x (hk.2 x hx).1 (hk.2 x hx).2
        (forall_zip_extractFields.mp (hts _ (List.mem_map_of_mem _ hx)))
    obtain ⟨e2, h2, hv2, hb2⟩ : ∃ e', encodeMembers .table "table" f.name (fun x e => children x (D.enter d f) e)
        (v.elements v.rawlen) e1 = .ok e' ∧ e'.Valid ∧
        e'.bytes = e1.bytes ++ ((v.elements v.rawlen).map fun x =>
          (Val.record (extractFields f.childs x)).layout).flatten :=
      encodeMembers_ok hput (fun x hx => (hk.2 x hx).1) hv1
        (by simp only [hb1, List.length_append, length_le]; simp only [Function.comp_def] at hroom; omega)
    refine ⟨e2, ?_, hv2, ?_⟩
    · simp only [encodePto, hdeep, hk.1, harr, if_true, Bool.false_eq_true, if_false, ne_eq,
        not_true_eq_false, h1, ok_bind, encodeRecords, h2]
    · rw [hb2, hb1, Val.layout_array]; simp; rfl

mutual

theorem encodeOne_sound (f : Field) (v : LuaValue) (d : δ) {e e' : Encoder} (hv : e.Valid)
    (h : encodeOne D f v d e = .ok e') :
    e'.Valid ∧ e'.bytes = e.bytes ++ (extract f v).layout ∧ Typed D d f (extract f v) ∧ Kinds f v := by
  match f with
  | ⟨name, array, type, childs⟩ =>
    cases ht : EType.ofCode type with
    | none => simp only [encodeOne, ht] at h; cases h
    | some t =>
      have hf := EType.ofCode_eq_some.mp ht
      simp only [encodeOne, ht] at h
      cases t with
      | bool => exact encodeScalar_sound D d (putBool_spec _) hf (scalarCode_code (by decide)) rfl hv h
      | short => exact encodeScalar_sound D d (putShort_spec _) hf (scalarCode_code (by decide)) rfl hv h
      | int => exact encodeScalar_sound D d (putInt_spec _) hf (scalarCode_code (by decide)) rfl hv h
      | float => exact encodeScalar_sound D d (putFloat_spec _) hf (scalarCode_code (by decide)) rfl hv h
      | double =>
        exact encodeScalar_sound D d (putDouble_spec _) hf (scalarCode_code (by decide)) rfl hv h
      | string =>
        exact encodeScalar_sound D d (putString_spec _) hf (scalarCode_code (by decide)) rfl hv h
      | pto => exact encodePto_sound D hf (fun hv h => encodeChildren_sound childs _ _ hv h) hv h

theorem encodeChildren_sound (childs : List Field) (v : LuaValue) (d : δ) {e e' : Encoder}
    (hv : e.Valid) (h : encodeChildren D childs v d e = .ok e') :
    e'.Valid ∧ e'.bytes = e.bytes ++ (Val.record (extractFields childs v)).layout ∧
      (∀ c ∈ childs, Typed D d c (extract c (v.getfield c.name))) ∧ KindsFields childs v := by
  match childs with
  | [] => cases h; exact ⟨hv, by simp [extractFields], by simp, trivial⟩
  | c :: cs =>
    obtain ⟨e1, h1, h⟩ := bind_eq_ok.mp h
    obtain ⟨hv1, hb1, ht1, hk1⟩ := encodeOne_sound c (v.getfield c.name) d hv h1
    obtain ⟨hv', hb', ht', hk'⟩ := encodeChildren_sound cs v d hv1 h
    exact ⟨hv', by simp [hb', hb1, extractFields], List.forall_mem_cons.mpr ⟨ht1, ht'⟩, hk1, hk'⟩

end

mutual

theorem encodeOne_ok (f : Field) (v : LuaValue) (d : δ) {e : Encoder} (hk : Kinds f v)
    (ht : Typed D d f (extract f v)) (hv : e.Valid)
    (hroom : e.bytes.length + (extract f v).layout.length ≤ 2 ^ 30) :
    ∃ e', encodeOne D f v d e = .ok e' ∧ e'.Valid ∧ e'.bytes = e.bytes ++ (extract f v).layout := by
  match f with
  | ⟨name, array, type, childs⟩ =>
    cases hc : EType.ofCode type with
    | none => have := ht.ofCode_isSome; simp [hc] at this
    | some t =>
      have hf := EType.ofCode_eq_some.mp hc
      simp only [encodeOne, hc]
      cases t with
      | bool => exact encodeScalar_ok D (putBool_spec _) hf (scalarCode_code (by decide)) rfl hk ht hv hroom
      | short => exact encodeScalar_ok D (putShort_spec _) hf (scalarCode_code (by decide)) rfl hk ht hv hroom
      | int => exact encodeScalar_ok D (putInt_spec _) hf (scalarCode_code (by decide)) rfl hk ht hv hroom
      | float => exact encodeScalar_ok D (putFloat_spec _) hf (scalarCode_code (by decide)) rfl hk ht hv hroom
      | double =>
        exact encodeScalar_ok D (putDouble_spec _) hf (scalarCode_code (by decide)) rfl hk ht hv hroom
      | string =>
        exact encodeScalar_ok D (putString_spec _) hf (scalarCode_code (by decide)) rfl hk ht hv hroom
      | pto =>
        exact encodePto_ok D hf (fun x _ hks hts _ hv hroom => encodeChildren_ok childs x _ hks hts hv hroom)
          hk ht hv hroom

theorem encodeChildren_ok (childs : List Field) (v : LuaValue) (d : δ) {e : Encoder}
    (hk : KindsFields childs v) (ht : ∀ c ∈ childs, Typed D d c (extract c (v.getfield c.name)))
    (hv : e.Valid) (hroom : e.bytes.length + (Val.record (extractFields childs v)).layout.length ≤ 2 ^ 30) :
    ∃ e', encodeChildren D childs v d e = .ok e' ∧ e'.Valid ∧
      e'.bytes = e.bytes ++ (Val.record (extractFields childs v)).layout := by
  match childs with
  | [] => exact ⟨e, rfl, hv, by simp [extractFields]⟩
  | c :: cs =>
    simp only [extractFields, Val.layout_record_cons, List.length_append] at hroom
    obtain ⟨e1, h1, hv1, hb1⟩ :=
      encodeOne_ok c (v.getfield c.name) d hk.1 (ht c (List.mem_cons_self _ _)) hv (by omega)
    obtain ⟨e2, h2, hv2, hb2⟩ := encodeChildren_ok cs v d hk.2
      (fun c' hc' => ht c' (List.mem_cons_of_mem _ hc')) hv1 (by rw [hb1, List.length_append]; omega)
    exact ⟨e2, by simp only [encodeChildren, h1, ok_bind, h2], hv2, by simp [hb2, hb1, extractFields]⟩

end

end Walk

theorem encodeFields_table (arr : List LuaValue) (hash : List (String × LuaValue)) :
    ∀ fs, encodeFields (.table arr hash) fs = encodeChildren counter fs (.table arr hash) 1
  | [] => rfl
  | f :: fs => by
    funext e
    simp only [encodeFields, encodeChildren, LuaValue.index_table, ok_bind, encodeFields_table arr hash fs]

end Encoder

end PtoCodec
