import Mathlib.Data.List.Forall2
import PtoCodec.EncoderSpec

namespace PtoCodec

mutual

def Field.UniqueNames : Field → Prop
  | ⟨_, _, _, childs⟩ => UniqueNames childs

def UniqueNames : List Field → Prop
  | [] => True
  | c :: cs => c.name ∉ cs.map Field.name ∧ Field.UniqueNames c ∧ UniqueNames cs

end

theorem UniqueNames.nodup : ∀ {cs : List Field}, UniqueNames cs → (cs.map Field.name).Nodup
  | [], _ => List.nodup_nil
  | _ :: _, ⟨hn, _, hu⟩ => List.nodup_cons.mpr ⟨hn, hu.nodup⟩

theorem UniqueNames.of_mem : ∀ {cs : List Field}, UniqueNames cs → ∀ {c}, c ∈ cs → UniqueNames c.childs
  | [], _, _, hc => absurd hc (List.not_mem_nil _)
  | ⟨_, _, _, _⟩ :: _, ⟨_, hc, hu⟩, _, hmem => (List.mem_cons.mp hmem).elim (· ▸ hc) hu.of_mem

mutual

def Field.height : Field → Nat
  | ⟨_, _, type, childs⟩ => if type = EType.pto.code then heightList childs + 1 else 0

def heightList : List Field → Nat
  | [] => 0
  | c :: cs => max c.height (heightList cs)

end

theorem height_le_heightList : ∀ {cs : List Field} {c : Field}, c ∈ cs → c.height ≤ heightList cs
  | _ :: _, _, hc => by
    rw [heightList]
    rcases List.mem_cons.mp hc with rfl | hc
    · exact le_max_left _ _
    · exact le_max_of_le_right (height_le_heightList hc)

def conformsScalar (type : Int) (x : LuaValue) : Prop :=
  match EType.ofCode type with
  | some .bool => ∃ b, x = .boolean b
  | some .short => ∃ i : BitVec 64, x = .integer i ∧ -2 ^ 15 ≤ i.toInt ∧ i.toInt < 2 ^ 15
  | some .int => ∃ i : BitVec 64, x = .integer i ∧ i.toInt.natAbs < 2 ^ 56
  | some .float => ∃ g : BitVec 32, x = .number (widen g)
  | some .double => ∃ d, x = .number d
  | some .string => ∃ s : Bytes, x = .string s ∧ s.length ≤ 0xffff
  | some .pto | none => False

mutual

def Conforms (f : Field) (v : LuaValue) : Prop :=
  match f with
  | ⟨_, array, type, childs⟩ =>
    let elem := fun x : LuaValue => if type = EType.pto.code then x.type = .table ∧ ConformsFields childs x
      else conformsScalar type x
    (EType.ofCode type).isSome ∧
      if array then v.type = .table ∧ v.rawlen ≤ 0xffff ∧ ∀ x ∈ v.elements v.rawlen, elem x else elem v

def ConformsFields : List Field → LuaValue → Prop
  | [], _ => True
  | c :: cs, v => Conforms c (v.getfield c.name) ∧ ConformsFields cs v

end

mutual

def Agree (f : Field) (x y : LuaValue) : Prop :=
  match f with
  | ⟨_, array, type, childs⟩ =>
    let elem := fun x y : LuaValue => if type = EType.pto.code then AgreeFields childs x y else x = y
    if array then List.Forall₂ elem (x.elements x.rawlen) (y.elements y.rawlen) else elem x y

def AgreeFields : List Field → LuaValue → LuaValue → Prop
  | [], _, _ => True
  | c :: cs, x, y => Agree c (x.getfield c.name) (y.getfield c.name) ∧ AgreeFields cs x y

end

section Fields

variable {cs : List Field} {x y : LuaValue}

theorem conformsFields_iff : ConformsFields cs x ↔ ∀ c ∈ cs, Conforms c (x.getfield c.name) := by
  induction cs with
  | nil => simp [ConformsFields]
  | cons c cs ih => simp [ConformsFields, ih]

theorem kindsFields_iff : KindsFields cs x ↔ ∀ c ∈ cs, Kinds c (x.getfield c.name) := by
  induction cs with
  | nil => simp [KindsFields]
  | cons c cs ih => simp [KindsFields, ih]

theorem agreeFields_iff : AgreeFields cs x y ↔ ∀ c ∈ cs, Agree c (x.getfield c.name) (y.getfield c.name) := by
  induction cs with
  | nil => simp [AgreeFields]
  | cons c cs ih => simp [AgreeFields, ih]

end Fields

theorem extractFields_eq_map (childs : List Field) (v : LuaValue) :
    extractFields childs v = childs.map fun c => (c.name, extract c (v.getfield c.name)) := by
  induction childs with
  | nil => rfl
  | cons c cs ih => simp [extractFields, ih]

theorem extractFields_congr {childs : List Field} {x y : LuaValue}
    (h : ∀ c ∈ childs, extract c (x.getfield c.name) = extract c (y.getfield c.name)) :
    extractFields childs x = extractFields childs y := by
  simp only [extractFields_eq_map]
  exact List.map_congr_left fun c hc => by rw [h c hc]

namespace Val

theorem type_concFields : ∀ (fields : List (String × Val)) (arr hash),
    (concFields fields (.table arr hash)).type = .table
  | [], _, _ => rfl
  | _ :: fields, _, _ => type_concFields fields _ _

theorem type_conc_record (fields : List (String × Val)) : (Val.record fields).conc.type = .table :=
  type_concFields fields [] []

theorem getfield_concFields_of_not_mem {k : String} :
    ∀ {fields : List (String × Val)} {r : LuaValue}, k ∉ fields.map Prod.fst →
      (concFields fields r).getfield k = r.getfield k
  | [], _, _ => rfl
  | (k', _) :: _, r, hk => by
    simp only [List.map_cons, List.mem_cons, not_or] at hk
    rw [concFields, getfield_concFields_of_not_mem hk.2, LuaValue.getfield_setfield_ne r _ hk.1]

theorem getfield_concFields {k : String} {x : Val} :
    ∀ {fields : List (String × Val)} {arr hash}, (fields.map Prod.fst).Nodup → (k, x) ∈ fields →
      (concFields fields (.table arr hash)).getfield k = x.conc
  | (k', x') :: fields, arr, hash, hnd, hmem => by
    rw [List.map_cons, List.nodup_cons] at hnd
    rcases List.mem_cons.mp hmem with h | h
    · cases h
      rw [concFields, getfield_concFields_of_not_mem hnd.1, LuaValue.getfield_setfield_self]
    · rw [concFields, LuaValue.setfield]
      exact getfield_concFields hnd.2 h

end Val

theorem getfield_conc_extractFields {childs : List Field} (hn : (childs.map Field.name).Nodup)
    {c : Field} (hc : c ∈ childs) (v : LuaValue) :
    (Val.record (extractFields childs v)).conc.getfield c.name = (extract c (v.getfield c.name)).conc :=
  Val.getfield_concFields (by rwa [extractFields_names])
    (by rw [extractFields_eq_map]; exact List.mem_map_of_mem _ hc)

@[simp] theorem conc_array (xs : List Val) : (Val.array xs).conc = .table (xs.map Val.conc) [] := by
  simp [Val.conc]

theorem elements_conc_array (xs : List Val) :
    (Val.array xs).conc.elements (Val.array xs).conc.rawlen = xs.map Val.conc := by
  rw [conc_array, LuaValue.rawlen_table, List.length_map, ← List.length_map xs Val.conc,
    LuaValue.elements_table]

theorem shortOf_signExtend (s : BitVec 16) : Encoder.shortOf (s.signExtend 64) = s := by
  ext i
  simp [Encoder.shortOf, BitVec.getLsbD_signExtend]
  omega

theorem signExtend_shortOf {i : BitVec 64} (h1 : -2 ^ 15 ≤ i.toInt) (h2 : i.toInt < 2 ^ 15) :
    (Encoder.shortOf i).signExtend 64 = i := by
  rw [BitVec.toInt_eq_toNat_cond] at h1 h2
  have := i.isLt
  rw [Encoder.shortOf, BitVec.ofNat_toNat]
  rcases hm : (BitVec.setWidth 16 i).msb with _ | _
  · rw [BitVec.signExtend_eq_not_setWidth_not_of_msb_false hm]
    simp only [BitVec.msb_eq_decide, BitVec.toNat_setWidth, decide_eq_false_iff_not] at hm
    apply BitVec.eq_of_toNat_eq
    simp only [BitVec.toNat_setWidth]
    split_ifs at h1 h2 <;> omega
  · rw [BitVec.signExtend_eq_not_setWidth_not_of_msb_true hm]
    simp only [BitVec.msb_eq_decide, BitVec.toNat_setWidth, decide_eq_true_iff] at hm
    apply BitVec.eq_of_toNat_eq
    simp only [BitVec.toNat_not, BitVec.toNat_setWidth]
    split_ifs at h1 h2 <;> omega

theorem extractScalar_conc (type : Int) (x : LuaValue) :
    extractScalar type (extractScalar type x).conc = extractScalar type x := by
  unfold extractScalar
  cases EType.ofCode type with
  | none => rfl
  | some t =>
    cases t <;> simp only [Val.conc, LuaValue.toboolean_boolean, LuaValue.tointeger_integer,
      shortOf_signExtend, LuaValue.tonumber_number, narrow_widen_narrow, LuaValue.tolstring_string]

theorem scalarKind_conc {type : Int} {k : LuaType} (h : scalarKind type = some k) (x : LuaValue) :
    scalarKind type = some (extractScalar type x).conc.type := by
  unfold scalarKind extractScalar at *
  cases ht : EType.ofCode type with
  | none => simp [ht] at h
  | some t => cases t <;> simp_all [Val.conc, LuaValue.type]

theorem extract_conc_extract (f : Field) :
    UniqueNames f.childs → ∀ v, extract f (extract f v).conc = extract f v ∧
      (Kinds f v → Kinds f (extract f v).conc) := by
  induction f using Field.induction with
  | mk name array type childs ih =>
    intro hu v
    have hrec : ∀ x, extractFields childs (Val.record (extractFields childs x)).conc = extractFields childs x :=
      fun x => extractFields_congr fun c hc => by
        rw [getfield_conc_extractFields hu.nodup hc]; exact (ih c hc (hu.of_mem hc) _).1
    have hkinds : ∀ x, KindsFields childs x → KindsFields childs (Val.record (extractFields childs x)).conc :=
      fun x hk => kindsFields_iff.mpr fun c hc => by
        rw [getfield_conc_extractFields hu.nodup hc]
        exact (ih c hc (hu.of_mem hc) _).2 (kindsFields_iff.mp hk c hc)
    by_cases hpto : type = EType.pto.code
    · cases array <;> simp only [extract, Kinds, hpto, if_true, Bool.false_eq_true, if_false]
      · exact ⟨by rw [hrec], fun hk => ⟨Val.type_conc_record _, hkinds v hk.2⟩⟩
      · rw [elements_conc_array]
        simp only [List.map_map, List.forall_mem_map, conc_array, LuaValue.type]
        refine ⟨by congr 1; exact List.map_congr_left fun x _ => by simp [hrec], fun hk => ⟨trivial, ?_⟩⟩
        exact fun x hx => ⟨Val.type_conc_record _, hkinds x (hk.2 x hx).2⟩
    · cases array <;> simp only [extract, Kinds, hpto, if_false, if_true, Bool.false_eq_true]
      · exact ⟨extractScalar_conc type v, fun hk => scalarKind_conc hk v⟩
      · rw [elements_conc_array]
        simp only [List.map_map, List.forall_mem_map, conc_array, LuaValue.type]
        refine ⟨by congr 1; exact List.map_congr_left fun x _ => by simp [extractScalar_conc],
          fun hk => ⟨trivial, fun x hx => scalarKind_conc (hk.2 x hx) x⟩⟩

theorem conformsScalar_spec {type : Int} {x : LuaValue} (h : conformsScalar type x) :
    scalarKind type = some x.type ∧ (extractScalar type x).Scalar type ∧ (extractScalar type x).conc = x := by
  unfold conformsScalar at h
  unfold scalarKind extractScalar
  cases ht : EType.ofCode type with
  | none => simp [ht] at h
  | some t =>
    have hc := EType.ofCode_eq_some.mp ht
    simp only [ht] at h
    cases t with
    | bool => obtain ⟨b, rfl⟩ := h; exact ⟨rfl, hc, by simp [Val.conc]⟩
    | short => obtain ⟨i, rfl, h1, h2⟩ := h; exact ⟨rfl, hc, by simp [Val.conc, signExtend_shortOf h1 h2]⟩
    | int => obtain ⟨i, rfl, hi⟩ := h; exact ⟨rfl, ⟨hc, hi⟩, rfl⟩
    | float => obtain ⟨g, rfl⟩ := h; exact ⟨rfl, hc, by simp [Val.conc, widen_narrow_widen]⟩
    | double => obtain ⟨d, rfl⟩ := h; exact ⟨rfl, hc, rfl⟩
    | string => obtain ⟨s, rfl, hs⟩ := h; exact ⟨rfl, ⟨hc, hs⟩, rfl⟩
    | pto => exact h.elim

theorem scalarCode_of_isSome {type : Int} (h : (EType.ofCode type).isSome) (hpto : type ≠ EType.pto.code) :
    scalarCode type := by
  obtain ⟨t, ht⟩ := Option.isSome_iff_exists.mp h
  rw [EType.ofCode_eq_some.mp ht] at hpto ⊢
  exact scalarCode_code fun h => hpto (h ▸ rfl)

theorem kinds_of_conforms (f : Field) : ∀ {v}, Conforms f v → Kinds f v := by
  induction f using Field.induction with
  | mk name array type childs ih =>
    intro v hc
    have hfields : ∀ x, ConformsFields childs x → KindsFields childs x := fun x h =>
      kindsFields_iff.mpr fun c hc' => ih c hc' (conformsFields_iff.mp h c hc')
    by_cases hpto : type = EType.pto.code
    · cases array <;> simp only [Conforms, Kinds, hpto, if_true, Bool.false_eq_true, if_false] at hc ⊢
      · exact ⟨hc.2.1, hfields v hc.2.2⟩
      · exact ⟨hc.2.1, fun x hx => ⟨(hc.2.2.2 x hx).1, hfields x (hc.2.2.2 x hx).2⟩⟩
    · cases array <;> simp only [Conforms, Kinds, hpto, if_false, if_true, Bool.false_eq_true] at hc ⊢
      · exact (conformsScalar_spec hc.2).1
      · exact ⟨hc.2.1, fun x hx => (conformsScalar_spec (hc.2.2.2 x hx)).1⟩

theorem typed_of_conforms (f : Field) :
    ∀ {v} {d : Int}, Conforms f v → d + f.height ≤ MAX_DEPTH → Typed counter d f (extract f v) := by
  induction f using Field.induction with
  | mk name array type childs ih =>
    intro v d hc hd
    by_cases hpto : type = EType.pto.code
    · simp only [Field.height, hpto, if_true] at hd
      have hdeep : counter.tooDeep (counter.enter d ⟨name, array, type, childs⟩) = false := by
        simp only [counter, MAX_DEPTH, decide_eq_false_iff_not] at hd ⊢; omega
      have hchild : ∀ x, ConformsFields childs x → ∀ c ∈ childs,
          Typed counter (counter.enter d ⟨name, array, type, childs⟩) c (extract c (x.getfield c.name)) :=
        fun x h c hc' => ih c hc' (conformsFields_iff.mp h c hc') (by
          have := height_le_heightList hc'; simp only [counter]; omega)
      cases array <;> simp only [Conforms, extract, hpto, if_true, Bool.false_eq_true, if_false] at hc ⊢
      · exact .record rfl rfl hdeep (by simp [Val.RecordOf]) (forall_zip_extractFields.mpr (hchild v hc.2.2))
      · refine .records rfl rfl hdeep (by simpa using hc.2.2.1) (by simp [Val.RecordOf]) ?_
        simp only [List.forall_mem_map, Val.values]
        exact fun x hx => forall_zip_extractFields.mpr (hchild x (hc.2.2.2 x hx).2)
    · cases array <;> simp only [Conforms, extract, hpto, if_false, if_true, Bool.false_eq_true] at hc ⊢
      · exact .scalar rfl (conformsScalar_spec hc.2).2.1
      · refine .scalars rfl (scalarCode_of_isSome hc.1 hpto) (by simpa using hc.2.2.1) ?_
        simp only [List.forall_mem_map]
        exact fun x hx => (conformsScalar_spec (hc.2.2.2 x hx)).2.1

theorem agree_of_conforms (f : Field) :
    UniqueNames f.childs → ∀ {v}, Conforms f v → Agree f (extract f v).conc v := by
  induction f using Field.induction with
  | mk name array type childs ih =>
    intro hu v hc
    have hfields : ∀ x, ConformsFields childs x → AgreeFields childs (Val.record (extractFields childs x)).conc x :=
      fun x h => agreeFields_iff.mpr fun c hc' => by
        rw [getfield_conc_extractFields hu.nodup hc']
        exact ih c hc' (hu.of_mem hc') (conformsFields_iff.mp h c hc')
    by_cases hpto : type = EType.pto.code
    · cases array <;> simp only [Conforms, Agree, extract, hpto, if_true, Bool.false_eq_true, if_false] at hc ⊢
      · exact hfields v hc.2.2
      · rw [elements_conc_array, List.map_map, List.forall₂_map_left_iff, List.forall₂_same]
        exact fun x hx => hfields x (hc.2.2.2 x hx).2
    · cases array <;> simp only [Conforms, Agree, extract, hpto, if_false, if_true, Bool.false_eq_true] at hc ⊢
      · exact (conformsScalar_spec hc.2).2.2
      · rw [elements_conc_array, List.map_map, List.forall₂_map_left_iff, List.forall₂_same]
        exact fun x hx => (conformsScalar_spec (hc.2.2.2 x hx)).2.2

end PtoCodec
