import PtoCodec.LuaStack
import PtoCodec.Encoder
import PtoCodec.Decoder
import PtoCodec.Import

namespace PtoCodec

namespace Stack

namespace Encoder

def encodeMembers (kind : LuaType) (expect name : String)
    (put : LuaState → Encoder → Except Fault (LuaState × Encoder)) (index : Nat) :
    List Nat → LuaState → Encoder → Except Fault (LuaState × Encoder)
  | [], L, e => .ok (L, e)
  | i :: is, L, e =>
    L.rawgeti index i >>= fun L =>
      let x := L.get (-1)
      if x.type ≠ kind then .error (.thrown (.badField true name expect x.typename))
      else put L e >>= fun (L, e) => encodeMembers kind expect name put index is (L.pop 1) e

def encodeScalar (kind : LuaType) (expect : String)
    (put : Field → Bool → LuaValue → Encoder → Except Fault Encoder)
    (f : Field) (index : Nat) (L : LuaState) (e : Encoder) : Except Fault (LuaState × Encoder) :=
  let v := L.get index
  if f.array then
    Encoder.beginArray f v e >>= fun (size, e) =>
      encodeMembers kind expect f.name (fun L e => (put f true (L.get (-1)) e).map (L, ·)) index
        (List.range' 1 size) L e
  else if v.type ≠ kind then .error (.thrown (.badField false f.name expect v.typename))
  else (put f false v e).map (L, ·)

def encodeBool : Field → Nat → LuaState → Encoder → Except Fault (LuaState × Encoder) :=
  encodeScalar .boolean "bool" Encoder.putBool

def encodeShort : Field → Nat → LuaState → Encoder → Except Fault (LuaState × Encoder) :=
  encodeScalar .number "short" Encoder.putShort

def encodeInt : Field → Nat → LuaState → Encoder → Except Fault (LuaState × Encoder) :=
  encodeScalar .number "int" Encoder.putInt

def encodeFloat : Field → Nat → LuaState → Encoder → Except Fault (LuaState × Encoder) :=
  encodeScalar .number "float" Encoder.putFloat

def encodeDouble : Field → Nat → LuaState → Encoder → Except Fault (LuaState × Encoder) :=
  encodeScalar .number "double" Encoder.putDouble

def encodeString : Field → Nat → LuaState → Encoder → Except Fault (LuaState × Encoder) :=
  encodeScalar .string "string" Encoder.putString

def encodeRecords (name : String) (put : LuaState → Encoder → Except Fault (LuaState × Encoder)) :
    Nat → List Nat → LuaState → Encoder → Except Fault (LuaState × Encoder) :=
  encodeMembers .table "table" name put

def encodePto (f : Field)
    (children : Int → Nat → Int → LuaState → Encoder → Except Fault (LuaState × Encoder))
    (index : Nat) (depth : Int) (L : LuaState) (e : Encoder) : Except Fault (LuaState × Encoder) :=
  let depth := depth + 1
  if depth > MAX_DEPTH then .error (.thrown (.tooDepth true))
  else
    let v := L.get index
    if v.type ≠ .table then .error (.thrown (.badField false f.name "table" v.typename))
    else if f.array then
      Encoder.beginArray f v e >>= fun (size, e) =>
        encodeRecords f.name (children (-1) (index + 2) depth) index (List.range' 1 size) L e
    else children index (index + 1) depth L e

mutual

def encodeOne (f : Field) (index : Nat) (depth : Int) (L : LuaState) (e : Encoder) :
    Except Fault (LuaState × Encoder) :=
  match f with
  | ⟨name, _, type, childs⟩ =>
    match EType.ofCode type with
    | some .bool => encodeBool f index L e
    | some .short => encodeShort f index L e
    | some .int => encodeInt f index L e
    | some .float => encodeFloat f index L e
    | some .double => encodeDouble f index L e
    | some .string => encodeString f index L e
    | some .pto => encodePto f (encodeChildren childs) index depth L e
    | none => .error (.thrown (.badType name type))

def encodeChildren (childs : List Field) (parent : Int) (index : Nat) (depth : Int) (L : LuaState)
    (e : Encoder) : Except Fault (LuaState × Encoder) :=
  match childs with
  | [] => .ok (L, e)
  | c :: cs =>
    L.getfield parent c.name >>= fun L =>
      encodeOne c index depth L e >>= fun (L, e) => encodeChildren cs parent index depth (L.pop 1) e

end

end Encoder

namespace Decoder

def decodeMembers (push : LuaState → Decoder → Except Fault (LuaState × Decoder)) :
    List Nat → LuaState → Decoder → Except Fault (LuaState × Decoder)
  | [], L, d => .ok (L, d)
  | i :: is, L, d => push L d >>= fun (L, d) => decodeMembers push is (L.seti i) d

def decodeValue (push : Nat → LuaState → Decoder → Except Fault (LuaState × Decoder)) (f : Field)
    (index : Nat) (L : LuaState) (d : Decoder) : Except Fault (LuaState × Decoder) :=
  if f.array then
    d.readFixed 2 >>= fun (size, d) =>
      L.createtable >>= fun L =>
        decodeMembers (push (index + 2)) (List.range' 1 (leValue size)) L d >>= fun (L, d) =>
          .ok (L.setfield index f.name, d)
  else push (index + 1) L d >>= fun (L, d) => .ok (L.setfield index f.name, d)

def pushRead (read : Decoder → Except Fault (LuaValue × Decoder)) (_ : Nat) (L : LuaState)
    (d : Decoder) : Except Fault (LuaState × Decoder) :=
  read d >>= fun (x, d) => L.push x >>= fun L => .ok (L, d)

def decodeBool : Field → Nat → LuaState → Decoder → Except Fault (LuaState × Decoder) :=
  decodeValue (pushRead Decoder.readBool)

def decodeShort : Field → Nat → LuaState → Decoder → Except Fault (LuaState × Decoder) :=
  decodeValue (pushRead Decoder.readShort)

def decodeInt : Field → Nat → LuaState → Decoder → Except Fault (LuaState × Decoder) :=
  decodeValue (pushRead Decoder.readInt)

def decodeFloat : Field → Nat → LuaState → Decoder → Except Fault (LuaState × Decoder) :=
  decodeValue (pushRead Decoder.readFloat)

def decodeDouble : Field → Nat → LuaState → Decoder → Except Fault (LuaState × Decoder) :=
  decodeValue (pushRead Decoder.readDouble)

def decodeString : Field → Nat → LuaState → Decoder → Except Fault (LuaState × Decoder) :=
  decodeValue (pushRead Decoder.readStringValue)

def decodePto (f : Field) (children : Nat → Int → LuaState → Decoder → Except Fault (LuaState × Decoder))
    (index : Nat) (depth : Int) (L : LuaState) (d : Decoder) : Except Fault (LuaState × Decoder) :=
  let depth := depth + 1
  if depth > MAX_DEPTH then .error (.thrown (.tooDepth false))
  else decodeValue (fun slot L d => L.createtable >>= fun L => children slot depth L d) f index L d

mutual

def decodeOne (f : Field) (index : Nat) (depth : Int) (L : LuaState) (d : Decoder) :
    Except Fault (LuaState × Decoder) :=
  match f with
  | ⟨name, _, type, childs⟩ =>
    match EType.ofCode type with
    | some .bool => decodeBool f index L d
    | some .short => decodeShort f index L d
    | some .int => decodeInt f index L d
    | some .float => decodeFloat f index L d
    | some .double => decodeDouble f index L d
    | some .string => decodeString f index L d
    | some .pto => decodePto f (decodeChildren childs) index depth L d
    | none => .error (.thrown (.badType name type))

def decodeChildren (childs : List Field) (index : Nat) (depth : Int) (L : LuaState) (d : Decoder) :
    Except Fault (LuaState × Decoder) :=
  match childs with
  | [] => .ok (L, d)
  | c :: cs => decodeOne c index depth L d >>= fun (L, d) => decodeChildren cs index depth L d

end

end Decoder

def encodePto (ctx : Context) (id : BitVec 64) (L : LuaState) : Except Fault LuaState :=
  let id := toUInt16 id.toInt
  match ctx.getPto id with
  | none => .error (.luaError s!"no such pto:{id}")
  | some pto =>
    match Encoder.encodeChildren pto.fields 3 4 1 (L.checkstack (MAX_DEPTH * 2 + 8).toNat)
        PtoCodec.Encoder.init with
    | .error (.thrown e) => .error (luaL_error e.reason)
    | .error fault => .error fault
    | .ok (L, e) => L.push (.string (e.ptr.take e.offset.toNat))

def decodePto (mem : Nat → UInt8) (ctx : Context) (id : BitVec 64) (L : LuaState) :
    Except Fault LuaState :=
  let id := toUInt16 id.toInt
  match ctx.getPto id with
  | none => .error (.luaError s!"no such pto:{id}")
  | some pto =>
    decodeInput mem pto (L.get 3) (L.get 4) >>= fun (ptr, size) =>
      (L.checkstack (MAX_DEPTH * 2 + 8).toNat).createtable >>= fun L =>
        match Decoder.decodeChildren pto.fields L.top 1 L ⟨ptr, 0, toInt size⟩ with
        | .error (.thrown e) => .error (luaL_error e.reason)
        | .error fault => .error fault
        | .ok (L, d) =>
          let name := pto.name
          if d.offset ≠ d.size then .error (.luaError s!"decode protocol:{name} error") else .ok L

def importEntry (children : Nat → Int → LuaState → Except Fault (LuaState × List Field)) (depth : Int)
    (L : LuaState) : Except Fault (LuaState × Field × Int) :=
  L.getfield (-1) "type" >>= fun L =>
    let type := (L.get (-1)).tointeger.toInt
    if ¬(0 ≤ type ∧ type ≤ 7) then .error (.undefined .enumRange)
    else (L.pop 1).getfield (-1) "array" >>= fun L =>
      let array := (L.get (-1)).toboolean
      (L.pop 1).getfield (-1) "name" >>= fun L =>
        match (L.get (-1)).tostring with
        | none => .error (.undefined .nullName)
        | some name =>
          if type = EType.pto.code then
            (L.pop 1).getfield (-1) "pto" >>= fun L =>
              children L.top (depth + 1) L >>= fun (L, childs) =>
                .ok (L.pop 1, ⟨name, array, type, childs⟩, depth + 1)
          else .ok (L.pop 1, ⟨name, array, type, []⟩, depth)

def importEntries (children : Nat → Int → LuaState → Except Fault (LuaState × List Field)) (index : Nat) :
    List Nat → Int → LuaState → Except Fault (LuaState × List Field)
  | [], _, L => .ok (L, [])
  | i :: is, depth, L =>
    (if (L.get index).type = .table then L.rawgeti index i else .error (.undefined .notATable)) >>= fun L =>
      importEntry children depth L >>= fun (L, field, depth) =>
        importEntries children index is depth (L.pop 1) >>= fun (L, fields) => .ok (L, field :: fields)

def importField : Nat → Nat → Int → LuaState → Except Fault (LuaState × List Field)
  | 0, _, _, _ => .error (.undefined .stackOverflow)
  | fuel + 1, index, depth, L =>
    importEntries (importField fuel) index (List.range' 1 (toInt (L.get index).rawlen).toNat) depth L

def importPto (ctx : Context) (id : BitVec 64) (name : String) (L : LuaState) : Except Fault Context :=
  let id := toUInt16 id.toInt
  if (L.get 4).type ≠ .table then
    let t := if L.top < 4 then "no value" else (L.get 4).typename
    .error (.luaError s!"bad argument #4 to 'Import' (table expected, got {t})")
  else if id > 0xffff then .error (.luaError "id must less than 0xffff")
  else
    let L := L.checkstack (MAX_DEPTH * 2 + 8).toNat
    importField L.limit L.top 1 L >>= fun (_, fields) => ctx.addPto id ⟨name, fields⟩

end Stack

end PtoCodec
