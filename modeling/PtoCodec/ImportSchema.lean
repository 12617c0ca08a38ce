import PtoCodec.ImportStack

namespace PtoCodec

def nameBytes (name : String) : Bytes := name.toList.map fun c => UInt8.ofNat c.toNat

def CName (name : String) : Prop := ∀ c ∈ name.toList, 0 < c.toNat ∧ c.toNat < 256

mutual

def Field.schema : Field → LuaValue
  | ⟨name, array, type, childs⟩ =>
    .table [] ([("type", .integer (BitVec.ofInt 64 type)), ("array", .boolean array),
      ("name", .string (nameBytes name))] ++
        if type = EType.pto.code then [("pto", .table (Field.schemas childs) [])] else [])

def Field.schemas : List Field → List LuaValue
  | [] => []
  | f :: fs => f.schema :: Field.schemas fs

end

mutual

def Field.Importable : Field → Prop
  | ⟨name, _, type, childs⟩ => CName name ∧ (0 ≤ type ∧ type ≤ 7) ∧
    if type = EType.pto.code then childs.length ≤ INT_MAX ∧ Field.ImportableList childs else childs = []

def Field.ImportableList : List Field → Prop
  | [] => True
  | f :: fs => f.Importable ∧ Field.ImportableList fs

end

end PtoCodec
