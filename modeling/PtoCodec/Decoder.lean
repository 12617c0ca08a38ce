import PtoCodec.Schema

namespace PtoCodec

structure Decoder where
  ptr : Nat → UInt8
  offset : Int
  size : Int

namespace Decoder

def load (d : Decoder) (k : Nat) : Bytes := (List.range k).map fun j => d.ptr (d.offset.toNat + j)

def readFixed (d : Decoder) (k : Nat) : Except Fault (Bytes × Decoder) :=
  intResult (d.size - d.offset) >>= fun rem =>
    if k > toSizeT rem then .error (.thrown .badDecode)
    else intResult (d.offset + k) >>= fun offset => .ok (d.load k, { d with offset })

def readBytes (d : Decoder) (size : Nat) : Except Fault (Bytes × Decoder) :=
  intResult (d.size - d.offset) >>= fun rem =>
    if rem < size then .error (.thrown .badDecode)
    else intResult (d.offset + size) >>= fun offset => .ok (d.load size, { d with offset })

def readVarint (d : Decoder) : Except Fault (BitVec 64 × Decoder) :=
  d.readFixed 1 >>= fun (tag, d) =>
    if leValue tag = 0 then .ok (0, d)
    else
      d.readBytes (leValue tag / 2) >>= fun (value, d) =>
        if leValue tag / 2 > 8 then .error (.undefined .accumulatorOverflow)
        else if leValue tag % 2 = 1 then .ok (BitVec.ofNat 64 (leValue value), d)
        else if leValue value = 2 ^ 63 then .error (.undefined .negateMinimum)
        else .ok (-BitVec.ofNat 64 (leValue value), d)

def readString (d : Decoder) : Except Fault (Bytes × Decoder) :=
  d.readFixed 2 >>= fun (size, d) => d.readBytes (leValue size)

def decodeMembers (read : Decoder → Except Fault (LuaValue × Decoder)) :
    List Nat → LuaValue → Decoder → Except Fault (LuaValue × Decoder)
  | [], t, d => .ok (t, d)
  | i :: is, t, d => read d >>= fun (x, d) => decodeMembers read is (t.rawseti i x) d

def decodeValue (read : Decoder → Except Fault (LuaValue × Decoder)) (f : Field) (parent : LuaValue)
    (d : Decoder) : Except Fault (LuaValue × Decoder) :=
  if f.array then
    d.readFixed 2 >>= fun (size, d) =>
      decodeMembers read (List.range' 1 (leValue size)) (.table [] []) d >>= fun (t, d) =>
        .ok (parent.setfield f.name t, d)
  else read d >>= fun (x, d) => .ok (parent.setfield f.name x, d)

def readBool (d : Decoder) : Except Fault (LuaValue × Decoder) :=
  d.readFixed 1 >>= fun (b, d) =>
    if leValue b < 2 then .ok (.boolean (leValue b ≠ 0), d) else .error (.undefined .invalidBool)

def readShort (d : Decoder) : Except Fault (LuaValue × Decoder) :=
  (d.readFixed 2).map fun (b, d) => (.integer ((BitVec.ofNat 16 (leValue b)).signExtend 64), d)

def readInt (d : Decoder) : Except Fault (LuaValue × Decoder) :=
  d.readVarint.map fun (v, d) => (.integer v, d)

def readFloat (d : Decoder) : Except Fault (LuaValue × Decoder) :=
  (d.readFixed 4).map fun (b, d) => (.number (widen (BitVec.ofNat 32 (leValue b))), d)

def readDouble (d : Decoder) : Except Fault (LuaValue × Decoder) :=
  (d.readFixed 8).map fun (b, d) => (.number (BitVec.ofNat 64 (leValue b)), d)

def readStringValue (d : Decoder) : Except Fault (LuaValue × Decoder) :=
  d.readString.map fun (s, d) => (.string s, d)

def decodeBool : Field → LuaValue → Decoder → Except Fault (LuaValue × Decoder) := decodeValue readBool

def decodeShort : Field → LuaValue → Decoder → Except Fault (LuaValue × Decoder) := decodeValue readShort

def decodeInt : Field → LuaValue → Decoder → Except Fault (LuaValue × Decoder) := decodeValue readInt

def decodeFloat : Field → LuaValue → Decoder → Except Fault (LuaValue × Decoder) := decodeValue readFloat

def decodeDouble : Field → LuaValue → Decoder → Except Fault (LuaValue × Decoder) :=
  decodeValue readDouble

def decodeString : Field → LuaValue → Decoder → Except Fault (LuaValue × Decoder) :=
  decodeValue readStringValue

variable {δ : Type} (D : Depth δ)

def decodePto (f : Field) (children : δ → LuaValue → Decoder → Except Fault (LuaValue × Decoder))
    (parent : LuaValue) (depth : δ) (d : Decoder) : Except Fault (LuaValue × Decoder) :=
  let depth := D.enter depth f
  if D.tooDeep depth then .error (.thrown (.tooDepth false))
  else decodeValue (fun d => children depth (.table [] []) d) f parent d

mutual

def decodeOne (f : Field) (depth : δ) (parent : LuaValue) (d : Decoder) :
    Except Fault (LuaValue × Decoder) :=
  match f with
  | ⟨name, _, type, childs⟩ =>
    match EType.ofCode type with
    | some .bool => decodeBool f parent d
    | some .short => decodeShort f parent d
    | some .int => decodeInt f parent d
    | some .float => decodeFloat f parent d
    | some .double => decodeDouble f parent d
    | some .string => decodeString f parent d
    | some .pto => decodePto D f (decodeChildren childs) parent depth d
    | none => .error (.thrown (.badType name type))

def decodeChildren (childs : List Field) (depth : δ) (record : LuaValue) (d : Decoder) :
    Except Fault (LuaValue × Decoder) :=
  match childs with
  | [] => .ok (record, d)
  | c :: cs => decodeOne c depth record d >>= fun (record, d) => decodeChildren cs depth record d

end

end Decoder

def decodeInput (mem : Nat → UInt8) (pto : Protocol) (arg3 arg4 : LuaValue) :
    Except Fault ((Nat → UInt8) × Nat) :=
  match arg3 with
  | .string s => .ok (fun i => s.getD i 0, s.length)
  | .lightuserdata p => .ok (fun i => mem (p + i), toSizeT arg4.tointeger.toInt)
  | v =>
    let name := pto.name
    let t := v.typename
    .error (.luaError s!"decode protocol:{name} error,unkown type:{t}")

def decodePto (mem : Nat → UInt8) (ctx : Context) (id : BitVec 64) (arg3 arg4 : LuaValue) :
    Except Fault LuaValue :=
  let id := toUInt16 id.toInt
  match ctx.getPto id with
  | none => .error (.luaError s!"no such pto:{id}")
  | some pto =>
    decodeInput mem pto arg3 arg4 >>= fun (ptr, size) =>
      match Decoder.decodeChildren counter pto.fields 1 (.table [] []) ⟨ptr, 0, toInt size⟩ with
      | .error (.thrown e) => .error (luaL_error e.reason)
      | .error fault => .error fault
      | .ok (record, d) =>
        let name := pto.name
        if d.offset ≠ d.size then .error (.luaError s!"decode protocol:{name} error") else .ok record

end PtoCodec
