import PtoCodec.Ieee

namespace PtoCodec

inductive LuaType where
  | nil
  | boolean
  | lightuserdata
  | number
  | string
  | table
  | function
  | userdata
  | thread
  deriving DecidableEq, Repr

def LuaType.name : LuaType → String
  | .nil => "nil"
  | .boolean => "boolean"
  | .lightuserdata => "userdata"
  | .number => "number"
  | .string => "string"
  | .table => "table"
  | .function => "function"
  | .userdata => "userdata"
  | .thread => "thread"

inductive LuaValue where
  | nil
  | boolean (b : Bool)
  | lightuserdata (p : Nat)
  | integer (i : BitVec 64)
  | number (d : BitVec 64)
  | string (s : Bytes)
  | table (arr : List LuaValue) (hash : List (String × LuaValue))
  | function (id : Nat)
  | userdata (id : Nat)
  | thread (id : Nat)

namespace LuaValue

def type : LuaValue → LuaType
  | .nil => .nil
  | .boolean _ => .boolean
  | .lightuserdata _ => .lightuserdata
  | .integer _ | .number _ => .number
  | .string _ => .string
  | .table _ _ => .table
  | .function _ => .function
  | .userdata _ => .userdata
  | .thread _ => .thread

def typename (v : LuaValue) : String := v.type.name

def toboolean : LuaValue → Bool
  | .nil | .boolean false => false
  | _ => true

@[simp] theorem toboolean_boolean (b : Bool) : (LuaValue.boolean b).toboolean = b := by
  cases b <;> rfl

def tointeger : LuaValue → BitVec 64
  | .integer i => i
  | .number d => ((toInteger? d).map (BitVec.ofInt 64)).getD 0
  | _ => 0

@[simp] theorem tointeger_integer (i : BitVec 64) : (LuaValue.integer i).tointeger = i := rfl

def tonumber : LuaValue → BitVec 64
  | .number d => d
  | .integer i => ofInt i.toInt
  | _ => 0

@[simp] theorem tonumber_number (d : BitVec 64) : (LuaValue.number d).tonumber = d := rfl

def tolstring : LuaValue → Bytes
  | .string s => s
  | _ => []

@[simp] theorem tolstring_string (s : Bytes) : (LuaValue.string s).tolstring = s := rfl

def rawlen : LuaValue → Nat
  | .table arr _ => arr.length
  | .string s => s.length
  | _ => 0

def rawgeti : LuaValue → Nat → LuaValue
  | .table arr _, i => (arr.get? (i - 1)).getD .nil
  | _, _ => .nil

def lookup (k : String) : List (String × LuaValue) → LuaValue
  | [] => .nil
  | (k', v) :: hash => if k' = k then v else lookup k hash

def getfield : LuaValue → String → LuaValue
  | .table _ hash, k => lookup k hash
  | _, _ => .nil

def stringLibrary : List String :=
  ["byte", "char", "dump", "find", "format", "gmatch", "gsub", "len", "lower", "match", "rep",
    "reverse", "sub", "upper", "pack", "packsize", "unpack"]

def index (v : LuaValue) (k : String) : Except Fault LuaValue :=
  match v with
  | .table _ hash => .ok (lookup k hash)
  | .string _ => .ok (if k ∈ stringLibrary then .function 0 else .nil)
  | v =>
    let t := v.typename
    .error (.luaError s!"attempt to index a {t} value")

@[simp] theorem index_table (arr : List LuaValue) (hash : List (String × LuaValue)) (k : String) :
    (LuaValue.table arr hash).index k = .ok ((LuaValue.table arr hash).getfield k) := rfl

def setfield : LuaValue → String → LuaValue → LuaValue
  | .table arr hash, k, v => .table arr ((k, v) :: hash.filter (·.1 ≠ k))
  | t, _, _ => t

def rawseti : LuaValue → Nat → LuaValue → LuaValue
  | .table arr hash, i, v =>
    if i = arr.length + 1 then .table (arr ++ [v]) hash else .table (arr.set (i - 1) v) hash
  | t, _, _ => t

def elements (v : LuaValue) (size : Nat) : List LuaValue :=
  (List.range size).map fun i => v.rawgeti (i + 1)

@[simp] theorem length_elements (v : LuaValue) (size : Nat) : (v.elements size).length = size := by
  simp [elements]

theorem lookup_filter_ne {k k' : String} (h : k' ≠ k) (hash : List (String × LuaValue)) :
    lookup k' (hash.filter (·.1 ≠ k)) = lookup k' hash := by
  induction hash with
  | nil => rfl
  | cons p hash ih =>
    obtain ⟨a, b⟩ := p
    by_cases ha : a = k
    · subst ha
      simp only [List.filter_cons, ne_eq, not_true_eq_false, decide_False, if_neg Bool.false_ne_true,
        ih, lookup, if_neg (Ne.symm h)]
    · simp only [List.filter_cons, ne_eq, ha, not_false_eq_true, decide_True, if_true, lookup, ih]

@[simp] theorem getfield_setfield_self (arr : List LuaValue) (hash : List (String × LuaValue))
    (k : String) (v : LuaValue) : ((LuaValue.table arr hash).setfield k v).getfield k = v := by
  simp [setfield, getfield, lookup]

@[simp] theorem getfield_setfield_ne (t : LuaValue) {k k' : String} (v : LuaValue) (h : k' ≠ k) :
    (t.setfield k v).getfield k' = t.getfield k' := by
  cases t <;> simp only [setfield, getfield, lookup, if_neg (Ne.symm h), lookup_filter_ne h]

@[simp] theorem rawlen_table (arr : List LuaValue) (hash : List (String × LuaValue)) :
    (LuaValue.table arr hash).rawlen = arr.length := rfl

@[simp] theorem elements_table (arr : List LuaValue) (hash : List (String × LuaValue)) :
    (LuaValue.table arr hash).elements arr.length = arr := by
  apply List.ext_getElem (by simp [elements])
  intro i h1 h2
  simp [elements, rawgeti, List.get?_eq_getElem?, h2]

theorem rawseti_push (arr : List LuaValue) (hash : List (String × LuaValue)) (v : LuaValue) :
    (LuaValue.table arr hash).rawseti (arr.length + 1) v = .table (arr ++ [v]) hash := by
  simp [rawseti]

end LuaValue

def pushvfstring : List Char → Except Fault (List Char)
  | [] => .ok []
  | c :: fmt =>
    if c ≠ '%' then (pushvfstring fmt).map (c :: ·)
    else match fmt with
      | [] => .error (.luaError "invalid option '%\x00' to 'lua_pushfstring'")
      | c :: fmt =>
        if c = '%' then (pushvfstring fmt).map ('%' :: ·)
        else if c ∈ ['s', 'c', 'd', 'I', 'f', 'p', 'U'] then .error (.undefined .missingVararg)
        else .error (.luaError s!"invalid option '%{c}' to 'lua_pushfstring'")

def luaL_error (fmt : String) : Fault :=
  match pushvfstring fmt.toList with
  | .ok msg => .luaError (String.mk msg)
  | .error fault => fault

theorem pushvfstring_fault : ∀ {fmt : List Char} {f : Fault}, pushvfstring fmt = .error f →
    (∃ m, f = .luaError m) ∨ f = .undefined .missingVararg
  | [], _, h => by cases h
  | c :: fmt, f, h => by
    rw [pushvfstring.eq_def] at h
    dsimp only at h
    split_ifs at h
    · exact pushvfstring_fault (map_eq_error h)
    · split at h
      · cases h
        exact .inl ⟨_, rfl⟩
      · split_ifs at h
        · exact pushvfstring_fault (map_eq_error h)
        · cases h
          exact .inr rfl
        · cases h
          exact .inl ⟨_, rfl⟩

theorem luaL_error_cases (fmt : String) :
    (∃ m, luaL_error fmt = .luaError m) ∨ luaL_error fmt = .undefined .missingVararg := by
  unfold luaL_error
  split
  · exact .inl ⟨_, rfl⟩
  · rename_i f hf
    obtain ⟨m, rfl⟩ | rfl := pushvfstring_fault hf
    · exact .inl ⟨m, rfl⟩
    · exact .inr rfl

end PtoCodec
