import Mathlib.Data.Nat.Defs
import Mathlib.Tactic.Ring

namespace PtoCodec

abbrev Bytes := List UInt8

def le (n : Nat) : Nat → Bytes
  | 0 => []
  | w + 1 => UInt8.ofNat n :: le (n / 256) w

def leValue : Bytes → Nat
  | [] => 0
  | b :: bs => b.toNat + 256 * leValue bs

theorem toNat_byte (n : Nat) : (UInt8.ofNat n).toNat = n % 256 := by
  simp [UInt8.ofNat, UInt8.toNat, BitVec.toNat_ofNat]

theorem byte_lt (b : UInt8) : b.toNat < 256 := b.toBitVec.isLt

theorem byte_ext {a b : UInt8} (h : a.toNat = b.toNat) : a = b :=
  UInt8.eq_of_toBitVec_eq (BitVec.eq_of_toNat_eq h)

@[simp] theorem length_le (n w : Nat) : (le n w).length = w := by
  induction w generalizing n <;> simp [le, *]

@[simp] theorem leValue_le (n w : Nat) : leValue (le n w) = n % 256 ^ w := by
  induction w generalizing n with
  | zero => simp [le, leValue, Nat.mod_one]
  | succ w ih => rw [le, leValue, ih, toNat_byte, Nat.pow_succ', Nat.mod_mul]

theorem leValue_lt (bs : Bytes) : leValue bs < 256 ^ bs.length := by
  induction bs with
  | nil => simp [leValue]
  | cons b bs ih =>
    have hb := byte_lt b
    simp only [leValue, List.length_cons, Nat.pow_succ']
    omega

@[simp] theorem leValue_singleton (b : UInt8) : leValue [b] = b.toNat := by simp [leValue]

theorem ofNat_natAbs_toInt {x : BitVec 64} (h : 0 < x.toInt) : BitVec.ofNat 64 x.toInt.natAbs = x := by
  apply BitVec.eq_of_toNat_eq
  rw [BitVec.toInt_eq_toNat_cond] at h ⊢
  have := x.isLt
  split_ifs at h ⊢
  simp; omega

theorem neg_ofNat_natAbs_toInt {x : BitVec 64} (h : x.toInt < 0) : -BitVec.ofNat 64 x.toInt.natAbs = x := by
  apply BitVec.eq_of_toNat_eq
  rw [BitVec.toInt_eq_toNat_cond] at h ⊢
  have := x.isLt
  split_ifs at h ⊢ <;> simp [BitVec.toNat_neg] <;> omega

theorem eq_zero_of_toInt {x : BitVec 64} (h : x.toInt = 0) : x = 0 := by
  apply BitVec.eq_of_toNat_eq
  rw [BitVec.toInt_eq_toNat_cond] at h
  have := x.isLt
  split_ifs at h <;> simp <;> omega

def INT_MAX : Int := 2147483647

inductive UB where
  | signedOverflow
  | endlessLoop
  | accumulatorOverflow
  | negateMinimum
  | tableOverflow
  | nullName
  | notATable
  | stackOverflow
  | invalidBool
  | enumRange
  | missingVararg
  deriving DecidableEq, Repr

inductive BadPto where
  | badArrayType (field vt : String)
  | badArraySize (field : String)
  | badField (array : Bool) (field expect vt : String)
  | badInt (field : String) (val : Int) (array : Bool)
  | badString (field : String) (size : Nat)
  | badType (field : String) (type : Int)
  | badDecode
  | tooDepth (encode : Bool)
  deriving DecidableEq, Repr

def BadPto.reason : BadPto → String
  | .badArrayType field vt => s!"field:{field} expect table,not {vt}"
  | .badArraySize field => s!"field:{field} array size more than 0xffff"
  | .badField true field expect vt => s!"field:{field} array member expect {expect},not {vt}"
  | .badField false field expect vt => s!"field:{field} expect {expect},not {vt}"
  | .badInt field val true => s!"field:{field} array member int out of range,{val}"
  | .badInt field val false => s!"field:{field} int out of range,{val}"
  | .badString field size => s!"field:{field} string size more than 0xffff:{size}"
  | .badType field type => s!"unknown field:{field},type:{type}"
  | .badDecode => "invalid message"
  | .tooDepth true => "pto encode too depth"
  | .tooDepth false => "pto decode too depth"

inductive Fault where
  | thrown (e : BadPto)
  | luaError (msg : String)
  | undefined (ub : UB)
  deriving DecidableEq, Repr

def intResult (x : Int) : Except Fault Int :=
  if -INT_MAX - 1 ≤ x ∧ x ≤ INT_MAX then .ok x else .error (.undefined .signedOverflow)

theorem intResult_of_fits {x : Int} (h : -INT_MAX - 1 ≤ x ∧ x ≤ INT_MAX) : intResult x = .ok x :=
  if_pos h

theorem intResult_eq_ok {x y : Int} (h : intResult x = .ok y) :
    y = x ∧ -INT_MAX - 1 ≤ x ∧ x ≤ INT_MAX := by
  simp only [intResult] at h
  split at h
  · cases h; exact ⟨rfl, ‹_›⟩
  · cases h

def toSizeT (x : Int) : Nat := (x % 2 ^ 64).toNat

def toInt (n : Int) : Int := n.bmod (2 ^ 32)

theorem toInt_of_le {n : Nat} (h : n ≤ INT_MAX) : toInt n = n := by
  simp only [toInt, Int.bmod_def, INT_MAX] at h ⊢
  split <;> omega

def toUInt16 (x : Int) : Nat := (x % 2 ^ 16).toNat

section Except

variable {ε α β : Type}

@[simp] theorem ok_bind (a : α) (f : α → Except ε β) : (Except.ok a >>= f) = f a := rfl

@[simp] theorem error_bind (e : ε) (f : α → Except ε β) : (Except.error e >>= f) = .error e := rfl

theorem bind_eq_ok {x : Except ε α} {f : α → Except ε β} {b : β} :
    x >>= f = .ok b ↔ ∃ a, x = .ok a ∧ f a = .ok b := by
  cases x <;> simp

theorem map_eq_ok {x : Except ε α} {f : α → β} {b : β} : x.map f = .ok b ↔ ∃ a, x = .ok a ∧ f a = b := by
  cases x <;> simp [Except.map]

theorem map_eq_error {x : Except ε α} {f : α → β} {e : ε} (h : x.map f = .error e) : x = .error e := by
  cases x <;> cases h
  rfl

end Except

end PtoCodec
