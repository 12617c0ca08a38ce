import PtoCodec.Schema

namespace PtoCodec

def varintLen (n : Nat) : Nat := ((List.range' 1 7).find? fun l => n < 2 ^ (8 * l)).getD 7

theorem varintLen_spec {n : Nat} (h : n < 2 ^ 56) :
    1 ≤ varintLen n ∧ varintLen n ≤ 7 ∧ n < 2 ^ (8 * varintLen n) := by
  unfold varintLen
  simp only [List.range', List.find?_cons, List.find?_nil, Nat.reduceMul, Nat.reducePow, Nat.reduceAdd]
  have : n < 256 ∨ (256 ≤ n ∧ n < 65536) ∨ (65536 ≤ n ∧ n < 16777216) ∨ (16777216 ≤ n ∧ n < 4294967296) ∨
    (4294967296 ≤ n ∧ n < 1099511627776) ∨ (1099511627776 ≤ n ∧ n < 281474976710656) ∨
    (281474976710656 ≤ n ∧ n < 72057594037927936) := by omega
  rcases this with h | h | h | h | h | h | h <;>
    simp (disch := omega) only [decide_eq_true, decide_eq_false, Option.getD_some] <;> omega

def varint7 (x : Int) : Bytes :=
  if x = 0 then [0]
  else UInt8.ofNat (2 * varintLen x.natAbs + if 0 < x then 1 else 0) :: le x.natAbs (varintLen x.natAbs)

def scalarCode (type : Int) : Prop := 0 ≤ type ∧ type < EType.pto.code

inductive Val where
  | bool (b : Bool)
  | short (x : BitVec 16)
  | int (x : BitVec 64)
  | float (x : BitVec 32)
  | double (x : BitVec 64)
  | string (s : Bytes)
  | record (fields : List (String × Val))
  | array (xs : List Val)

namespace Val

mutual

def layout : Val → Bytes
  | .bool b => [if b then 1 else 0]
  | .short x => le x.toNat 2
  | .int x => varint7 x.toInt
  | .float x => le x.toNat 4
  | .double x => le x.toNat 8
  | .string s => le s.length 2 ++ s
  | .record fields => layoutFields fields
  | .array xs => le xs.length 2 ++ layoutList xs

def layoutFields : List (String × Val) → Bytes
  | [] => []
  | (_, v) :: fields => v.layout ++ layoutFields fields

def layoutList : List Val → Bytes
  | [] => []
  | x :: xs => x.layout ++ layoutList xs

end

mutual

def conc : Val → LuaValue
  | .bool b => .boolean b
  | .short x => .integer (x.signExtend 64)
  | .int x => .integer x
  | .float x => .number (widen x)
  | .double x => .number x
  | .string s => .string s
  | .record fields => concFields fields (.table [] [])
  | .array xs => .table (concList xs) []

def concFields : List (String × Val) → LuaValue → LuaValue
  | [], r => r
  | (k, v) :: fields, r => concFields fields (r.setfield k v.conc)

def concList : List Val → List LuaValue
  | [] => []
  | x :: xs => x.conc :: concList xs

end

@[simp] theorem layoutList_eq (xs : List Val) : layoutList xs = (xs.map layout).flatten := by
  induction xs with
  | nil => rfl
  | cons x xs ih => simp [layoutList, ih]

@[simp] theorem layoutFields_eq (fields : List (String × Val)) :
    layoutFields fields = (fields.map fun p => p.2.layout).flatten := by
  induction fields with
  | nil => rfl
  | cons p fields ih => simp [layoutFields, ih]

@[simp] theorem layout_record_nil : (Val.record []).layout = [] := rfl

@[simp] theorem layout_record_cons (k : String) (x : Val) (fields : List (String × Val)) :
    (Val.record ((k, x) :: fields)).layout = x.layout ++ (Val.record fields).layout := rfl

theorem layout_array (xs : List Val) : (Val.array xs).layout = le xs.length 2 ++ (xs.map layout).flatten := by
  simp [layout]

@[simp] theorem concList_eq (xs : List Val) : concList xs = xs.map conc := by
  induction xs with
  | nil => rfl
  | cons x xs ih => simp [concList, ih]

def values : Val → List Val
  | .record fields => fields.map Prod.snd
  | _ => []

def Scalar (type : Int) : Val → Prop
  | .bool _ => type = EType.bool.code
  | .short _ => type = EType.short.code
  | .int x => type = EType.int.code ∧ x.toInt.natAbs < 2 ^ 56
  | .float _ => type = EType.float.code
  | .double _ => type = EType.double.code
  | .string s => type = EType.string.code ∧ s.length ≤ 0xffff
  | .record _ | .array _ => False

theorem Scalar.scalarCode {type : Int} {a : Val} (hs : a.Scalar type) : scalarCode type := by
  cases a <;> simp_all [Scalar, PtoCodec.scalarCode, EType.code]

def RecordOf (childs : List Field) : Val → Prop
  | .record fields => fields.map Prod.fst = childs.map Field.name
  | _ => False

end Val

theorem scalarCode_isSome {type : Int} (h : scalarCode type) : (EType.ofCode type).isSome := by
  obtain ⟨h0, h6⟩ := h
  have : type = 0 ∨ type = 1 ∨ type = 2 ∨ type = 3 ∨ type = 4 ∨ type = 5 := by
    simp only [EType.code] at h6; omega
  rcases this with rfl | rfl | rfl | rfl | rfl | rfl <;> rfl

section Typed

variable {δ : Type} (D : Depth δ)

inductive Typed : δ → Field → Val → Prop
  | scalar {d f a} : f.array = false → a.Scalar f.type → Typed d f a
  | record {d f fields} : f.array = false → f.type = EType.pto.code →
      D.tooDeep (D.enter d f) = false → (Val.record fields).RecordOf f.childs →
      (∀ p ∈ f.childs.zip (fields.map Prod.snd), Typed (D.enter d f) p.1 p.2) →
      Typed d f (.record fields)
  | scalars {d f xs} : f.array = true → scalarCode f.type → xs.length ≤ 0xffff →
      (∀ x ∈ xs, x.Scalar f.type) → Typed d f (.array xs)
  | records {d f xs} : f.array = true → f.type = EType.pto.code →
      D.tooDeep (D.enter d f) = false → xs.length ≤ 0xffff → (∀ x ∈ xs, x.RecordOf f.childs) →
      (∀ x ∈ xs, ∀ p ∈ f.childs.zip x.values, Typed (D.enter d f) p.1 p.2) →
      Typed d f (.array xs)

namespace Typed

variable {D} {d : δ} {f : Field}

theorem scalar_of {a : Val} (h : Typed D d f a) (harr : f.array = false) (hpto : f.type ≠ EType.pto.code) :
    a.Scalar f.type := by
  cases h with
  | scalar _ hs => exact hs
  | record _ h => exact absurd h hpto
  | scalars h => simp_all
  | records h => simp_all

theorem scalars_of {xs : List Val} (h : Typed D d f (.array xs)) (hpto : f.type ≠ EType.pto.code) :
    xs.length ≤ 0xffff ∧ ∀ x ∈ xs, x.Scalar f.type := by
  cases h with
  | scalar _ hs => exact hs.elim
  | scalars _ _ hlen hs => exact ⟨hlen, hs⟩
  | records _ h => exact absurd h hpto

theorem record_of {fields : List (String × Val)} (h : Typed D d f (.record fields)) :
    D.tooDeep (D.enter d f) = false ∧
      ∀ p ∈ f.childs.zip (fields.map Prod.snd), Typed D (D.enter d f) p.1 p.2 := by
  cases h with
  | scalar _ hs => exact hs.elim
  | record _ _ hdeep _ hs => exact ⟨hdeep, hs⟩

theorem records_of {xs : List Val} (h : Typed D d f (.array xs)) (hpto : f.type = EType.pto.code) :
    D.tooDeep (D.enter d f) = false ∧ xs.length ≤ 0xffff ∧
      ∀ x ∈ xs, ∀ p ∈ f.childs.zip x.values, Typed D (D.enter d f) p.1 p.2 := by
  cases h with
  | scalar _ hs => exact hs.elim
  | scalars _ hc => simp [scalarCode, hpto] at hc
  | records _ _ hdeep hlen _ hs => exact ⟨hdeep, hlen, hs⟩

theorem ofCode_isSome {a : Val} (h : Typed D d f a) : (EType.ofCode f.type).isSome := by
  cases h with
  | scalar _ hs => cases a <;> simp_all [Val.Scalar]
  | record _ hf => simp [hf]
  | scalars _ hc => exact scalarCode_isSome hc
  | records _ hf => simp [hf]

end Typed

end Typed

end PtoCodec
