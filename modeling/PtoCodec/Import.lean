import PtoCodec.Schema

namespace PtoCodec

def cName (s : Bytes) : String := String.mk ((s.takeWhile (· ≠ 0)).map fun b => Char.ofNat b.toNat)

def LuaValue.tostring : LuaValue → Option String
  | .string s => some (cName s)
  | .integer i => some (toString i.toInt)
  | _ => none

mutual

def importField (schema : LuaValue) (depth : Int) : Except Fault (List Field) :=
  match schema with
  | .table arr _ => importEntries arr (toInt arr.length).toNat depth
  | .string s => if toInt s.length > 0 then .error (.undefined .notATable) else .ok []
  | .nil | .boolean _ | .lightuserdata _ | .integer _ | .number _ | .function _ | .userdata _ | .thread _ =>
    .ok []

def importEntries (entries : List LuaValue) (size : Nat) (depth : Int) : Except Fault (List Field) :=
  match entries, size with
  | x :: xs, size + 1 =>
    importEntry x depth >>= fun (field, depth) =>
      importEntries xs size depth >>= fun fields => .ok (field :: fields)
  | _, _ => .ok []

def importEntry (entry : LuaValue) (depth : Int) : Except Fault (Field × Int) :=
  match entry with
  | .table arr hash =>
    let type := ((LuaValue.table arr hash).getfield "type").tointeger.toInt
    let array := ((LuaValue.table arr hash).getfield "array").toboolean
    if ¬(0 ≤ type ∧ type ≤ 7) then .error (.undefined .enumRange)
    else match ((LuaValue.table arr hash).getfield "name").tostring with
    | none => .error (.undefined .nullName)
    | some name =>
      if type = EType.pto.code then
        importChildren hash (depth + 1) >>= fun childs => .ok (⟨name, array, type, childs⟩, depth + 1)
      else .ok (⟨name, array, type, []⟩, depth)
  | .string _ => .error (.undefined .nullName)
  | v =>
    let t := v.typename
    .error (.luaError s!"attempt to index a {t} value")

def importChildren (hash : List (String × LuaValue)) (depth : Int) : Except Fault (List Field) :=
  match hash with
  | [] => .ok []
  | (k, v) :: rest => if k = "pto" then importField v depth else importChildren rest depth

end

def importPto (ctx : Context) (id : BitVec 64) (name : String) (schema : LuaValue)
    (extra : List LuaValue) : Except Fault Context :=
  let id := toUInt16 id.toInt
  if schema.type ≠ .table then
    let t := schema.typename
    .error (.luaError s!"bad argument #4 to 'Import' (table expected, got {t})")
  else if id > 0xffff then .error (.luaError "id must less than 0xffff")
  else importField (extra.getLastD schema) 1 >>= fun fields => ctx.addPto id ⟨name, fields⟩

end PtoCodec
