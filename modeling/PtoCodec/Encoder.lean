import PtoCodec.Schema

namespace PtoCodec

def BUFFER_SIZE : Int := 128

def MAX_INT : Int := 0xffffffffffffff

structure Encoder where
  ptr : Bytes
  offset : Int
  size : Int

namespace Encoder

def init : Encoder := ⟨List.replicate 128 0, 0, BUFFER_SIZE⟩

def grow : Nat → Int → Int → Except Fault Int
  | 0, _, _ => .error (.undefined .endlessLoop)
  | fuel + 1, nsize, need =>
    if nsize < need then intResult (nsize * 2) >>= fun nsize => grow fuel nsize need else .ok nsize

def reserve (e : Encoder) (sz : Int) : Except Fault Encoder :=
  intResult (e.offset + sz) >>= fun need =>
    if need ≤ e.size then .ok e
    else
      (intResult (e.size * 2) >>= fun nsize => grow 32 nsize need) >>= fun nsize =>
        .ok ⟨e.ptr.take e.size.toNat ++ List.replicate (nsize - e.size).toNat 0, e.offset, nsize⟩

def append (e : Encoder) (data : Bytes) : Except Fault Encoder :=
  e.reserve data.length >>= fun e =>
    intResult (e.offset + data.length) >>= fun offset =>
      .ok ⟨e.ptr.take e.offset.toNat ++ data ++ e.ptr.drop (e.offset.toNat + data.length), offset, e.size⟩

def appendString (e : Encoder) (str : Bytes) : Except Fault Encoder :=
  e.append (le (toUInt16 str.length) 2) >>= fun e => e.append str

def varintLength (value : Nat) : Nat :=
  if value ≤ 0xff then 1
  else if value ≤ 0xffff then 2
  else if value ≤ 0xffffff then 3
  else if value ≤ 0xffffffff then 4
  else if value ≤ 0xffffffffff then 5
  else if value ≤ 0xffffffffffff then 6
  else 7

def appendInt (e : Encoder) (val : BitVec 64) : Except Fault Encoder :=
  if val.toInt = 0 then e.append [0]
  else if val.toInt = -2 ^ 63 then .error (.undefined .negateMinimum)
  else
    let positive := if val.toInt < 0 then 0 else 1
    let length := varintLength val.toInt.natAbs
    e.append (UInt8.ofNat (length * 2 + positive) :: le val.toInt.natAbs length)

def beginArray (f : Field) (v : LuaValue) (e : Encoder) : Except Fault (Nat × Encoder) :=
  if v.type ≠ .table then .error (.thrown (.badArrayType f.name v.typename))
  else if v.rawlen > 0xffff then .error (.thrown (.badArraySize f.name))
  else (e.append (le v.rawlen 2)).map (v.rawlen, ·)

def encodeMembers (kind : LuaType) (expect name : String)
    (put : LuaValue → Encoder → Except Fault Encoder) : List LuaValue → Encoder → Except Fault Encoder
  | [], e => .ok e
  | x :: xs, e =>
    if x.type ≠ kind then .error (.thrown (.badField true name expect x.typename))
    else put x e >>= encodeMembers kind expect name put xs

def encodeScalar (kind : LuaType) (expect : String)
    (put : Field → Bool → LuaValue → Encoder → Except Fault Encoder)
    (f : Field) (v : LuaValue) (e : Encoder) : Except Fault Encoder :=
  if f.array then
    beginArray f v e >>= fun (size, e) => encodeMembers kind expect f.name (put f true) (v.elements size) e
  else if v.type ≠ kind then .error (.thrown (.badField false f.name expect v.typename))
  else put f false v e

def shortOf (i : BitVec 64) : BitVec 16 := BitVec.ofNat 16 i.toNat

def putBool (_ : Field) (_ : Bool) (x : LuaValue) (e : Encoder) : Except Fault Encoder :=
  e.append [if x.toboolean then 1 else 0]

def putShort (_ : Field) (_ : Bool) (x : LuaValue) (e : Encoder) : Except Fault Encoder :=
  e.append (le (shortOf x.tointeger).toNat 2)

def putInt (f : Field) (array : Bool) (x : LuaValue) (e : Encoder) : Except Fault Encoder :=
  if x.tointeger.toInt > MAX_INT ∨ x.tointeger.toInt < -MAX_INT then
    .error (.thrown (.badInt f.name x.tointeger.toInt array))
  else e.appendInt x.tointeger

def putFloat (_ : Field) (_ : Bool) (x : LuaValue) (e : Encoder) : Except Fault Encoder :=
  e.append (le (narrow x.tonumber).toNat 4)

def putDouble (_ : Field) (_ : Bool) (x : LuaValue) (e : Encoder) : Except Fault Encoder :=
  e.append (le x.tonumber.toNat 8)

def putString (f : Field) (_ : Bool) (x : LuaValue) (e : Encoder) : Except Fault Encoder :=
  if x.tolstring.length > 0xffff then .error (.thrown (.badString f.name x.tolstring.length))
  else e.appendString x.tolstring

def encodeBool : Field → LuaValue → Encoder → Except Fault Encoder := encodeScalar .boolean "bool" putBool

def encodeShort : Field → LuaValue → Encoder → Except Fault Encoder := encodeScalar .number "short" putShort

def encodeInt : Field → LuaValue → Encoder → Except Fault Encoder := encodeScalar .number "int" putInt

def encodeFloat : Field → LuaValue → Encoder → Except Fault Encoder := encodeScalar .number "float" putFloat

def encodeDouble : Field → LuaValue → Encoder → Except Fault Encoder :=
  encodeScalar .number "double" putDouble

def encodeString : Field → LuaValue → Encoder → Except Fault Encoder :=
  encodeScalar .string "string" putString

def encodeRecords (name : String) (put : LuaValue → Encoder → Except Fault Encoder) :
    List LuaValue → Encoder → Except Fault Encoder :=
  encodeMembers .table "table" name put

variable {δ : Type} (D : Depth δ)

def encodePto (f : Field) (children : LuaValue → δ → Encoder → Except Fault Encoder) (v : LuaValue)
    (depth : δ) (e : Encoder) : Except Fault Encoder :=
  let depth := D.enter depth f
  if D.tooDeep depth then .error (.thrown (.tooDepth true))
  else if v.type ≠ .table then .error (.thrown (.badField false f.name "table" v.typename))
  else if f.array then
    beginArray f v e >>= fun (size, e) =>
      encodeRecords f.name (fun x e => children x depth e) (v.elements size) e
  else children v depth e

mutual

def encodeOne (f : Field) (v : LuaValue) (depth : δ) (e : Encoder) : Except Fault Encoder :=
  match f with
  | ⟨name, _, type, childs⟩ =>
    match EType.ofCode type with
    | some .bool => encodeBool f v e
    | some .short => encodeShort f v e
    | some .int => encodeInt f v e
    | some .float => encodeFloat f v e
    | some .double => encodeDouble f v e
    | some .string => encodeString f v e
    | some .pto => encodePto D f (encodeChildren childs) v depth e
    | none => .error (.thrown (.badType name type))

def encodeChildren (childs : List Field) (v : LuaValue) (depth : δ) (e : Encoder) :
    Except Fault Encoder :=
  match childs with
  | [] => .ok e
  | c :: cs => encodeOne c (v.getfield c.name) depth e >>= encodeChildren cs v depth

end

def encodeFields (record : LuaValue) : List Field → Encoder → Except Fault Encoder
  | [], e => .ok e
  | f :: fs, e => record.index f.name >>= fun v => encodeOne counter f v 1 e >>= encodeFields record fs

end Encoder

def encodePto (ctx : Context) (id : BitVec 64) (record : LuaValue) : Except Fault Bytes :=
  let id := toUInt16 id.toInt
  match ctx.getPto id with
  | none => .error (.luaError s!"no such pto:{id}")
  | some pto =>
    match Encoder.encodeFields record pto.fields Encoder.init with
    | .error (.thrown e) => .error (luaL_error e.reason)
    | .error fault => .error fault
    | .ok e => .ok (e.ptr.take e.offset.toNat)

end PtoCodec
