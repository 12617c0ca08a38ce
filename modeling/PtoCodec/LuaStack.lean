import PtoCodec.Lua

namespace PtoCodec

structure LuaState where
  slots : List LuaValue
  limit : Nat

namespace LuaState

def top (L : LuaState) : Nat := L.slots.length

def get (L : LuaState) (i : Int) : LuaValue :=
  if 0 < i then L.slots.getD (i.toNat - 1) .nil else L.slots.getD (L.top - i.natAbs) .nil

def pushed (L : LuaState) (v : LuaValue) : LuaState := { L with slots := L.slots ++ [v] }

def push (L : LuaState) (v : LuaValue) : Except Fault LuaState :=
  if L.top < L.limit then .ok (L.pushed v) else .error (.undefined .stackOverflow)

def pop (L : LuaState) (n : Nat) : LuaState := { L with slots := L.slots.take (L.top - n) }

def set (L : LuaState) (i : Nat) (v : LuaValue) : LuaState := { L with slots := L.slots.set (i - 1) v }

def checkstack (L : LuaState) (n : Nat) : LuaState := { L with limit := max L.limit (L.top + n) }

def rawgeti (L : LuaState) (index : Int) (i : Nat) : Except Fault LuaState := L.push ((L.get index).rawgeti i)

def getfield (L : LuaState) (index : Int) (k : String) : Except Fault LuaState :=
  (L.get index).index k >>= L.push

def createtable (L : LuaState) : Except Fault LuaState := L.push (.table [] [])

def setfield (L : LuaState) (index : Nat) (k : String) : LuaState :=
  let v := L.get (-1)
  let L := L.pop 1
  L.set index ((L.get index).setfield k v)

def seti (L : LuaState) (i : Nat) : LuaState :=
  let v := L.get (-1)
  let L := L.pop 1
  L.set L.top ((L.get (-1)).rawseti i v)

section Lemmas

variable (L : LuaState) (v w : LuaValue)

@[simp] theorem top_pushed : (L.pushed v).top = L.top + 1 := by simp [pushed, top]

@[simp] theorem limit_pushed : (L.pushed v).limit = L.limit := rfl

@[simp] theorem top_set (i : Nat) : (L.set i v).top = L.top := by simp [set, top]

@[simp] theorem limit_set (i : Nat) : (L.set i v).limit = L.limit := rfl

@[simp] theorem top_checkstack (n : Nat) : (L.checkstack n).top = L.top := rfl

@[simp] theorem limit_checkstack (n : Nat) : (L.checkstack n).limit = max L.limit (L.top + n) := rfl

@[simp] theorem get_checkstack (n : Nat) (i : Int) : (L.checkstack n).get i = L.get i := rfl

theorem push_of_lt {L : LuaState} (h : L.top < L.limit) (v : LuaValue) : L.push v = .ok (L.pushed v) :=
  if_pos h

theorem push_of_le {L : LuaState} (h : L.limit ≤ L.top) (v : LuaValue) :
    L.push v = .error (.undefined .stackOverflow) :=
  if_neg (Nat.not_lt.mpr h)

@[simp] theorem pop_pushed : (L.pushed v).pop 1 = L := by
  simp [pushed, pop, top]

@[simp] theorem get_pushed_top : (L.pushed v).get (-1) = v := by
  simp [pushed, get, top]

@[simp] theorem get_pushed_succ : (L.pushed v).get ((L.top + 1 : Nat) : Int) = v := by
  simp only [get, pushed, top]
  simp

@[simp] theorem get_top_pushed : (L.pushed v).get (L.pushed v).top = v := by
  rw [top_pushed, get_pushed_succ]

theorem get_set_self {i : Nat} (h0 : 0 < i) (h : i ≤ L.top) : (L.set i v).get i = v := by
  have hi : (0 : Int) < i := by omega
  simp only [top] at h
  simp only [get, set, if_pos hi, Int.toNat_ofNat, List.getD_eq_getElem?_getD,
    List.getElem?_set_self (show i - 1 < L.slots.length by omega), Option.getD_some]

theorem set_get_self {i : Nat} (h0 : 0 < i) (h : i ≤ L.top) : L.set i (L.get i) = L := by
  have hi : (0 : Int) < i := by omega
  simp only [top] at h
  simp only [set, get, if_pos hi, Int.toNat_ofNat, List.getD_eq_getElem?_getD,
    List.getElem?_eq_getElem (show i - 1 < L.slots.length by omega), Option.getD_some]
  congr
  apply List.ext_getElem (List.length_set ..) fun j _ _ => ?_
  rw [List.getElem_set]
  split <;> simp_all

@[simp] theorem set_set (i : Nat) : (L.set i v).set i w = L.set i w := by simp [set]

theorem set_pushed_succ : (L.pushed v).set (L.top + 1) w = L.pushed w := by
  simp [set, pushed, top, List.set_append_right]

theorem setfield_pushed (i : Nat) (k : String) :
    (L.pushed v).setfield i k = L.set i ((L.get i).setfield k v) := by
  simp only [setfield, get_pushed_top, pop_pushed]

theorem seti_pushed (i : Nat) : ((L.pushed v).pushed w).seti i = L.pushed (v.rawseti i w) := by
  simp only [seti, get_pushed_top, pop_pushed, top_pushed, set_pushed_succ]

end Lemmas

end LuaState

end PtoCodec
