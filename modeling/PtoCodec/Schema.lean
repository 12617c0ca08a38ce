import PtoCodec.Lua

namespace PtoCodec

def MAX_DEPTH : Int := 128

inductive EType where
  | bool
  | short
  | int
  | float
  | double
  | string
  | pto
  deriving DecidableEq, Repr

def EType.code : EType → Int
  | .bool => 0
  | .short => 1
  | .int => 2
  | .float => 3
  | .double => 4
  | .string => 5
  | .pto => 6

@[simp] theorem EType.code_inj {a b : EType} : a.code = b.code ↔ a = b := by
  cases a <;> cases b <;> decide

def EType.ofCode (code : Int) : Option EType :=
  [EType.bool, .short, .int, .float, .double, .string, .pto].find? (·.code = code)

@[simp] theorem EType.ofCode_code (t : EType) : EType.ofCode t.code = some t := by
  cases t <;> rfl

theorem EType.ofCode_eq_some {c : Int} {t : EType} : EType.ofCode c = some t ↔ c = t.code := by
  refine ⟨fun h => ?_, fun h => h ▸ EType.ofCode_code t⟩
  have h : List.find? (fun t : EType => decide (t.code = c)) _ = some t := h
  have h := List.find?_some h
  exact (of_decide_eq_true h).symm

structure Field where
  name : String
  array : Bool
  type : Int
  childs : List Field

mutual

theorem Field.induction {P : Field → Prop}
    (mk : ∀ name array type childs, (∀ c ∈ childs, P c) → P ⟨name, array, type, childs⟩) :
    ∀ f, P f
  | ⟨name, array, type, childs⟩ => mk name array type childs (Field.induction_list mk childs)

theorem Field.induction_list {P : Field → Prop}
    (mk : ∀ name array type childs, (∀ c ∈ childs, P c) → P ⟨name, array, type, childs⟩) :
    ∀ cs : List Field, ∀ c ∈ cs, P c
  | [], _, hc => absurd hc (List.not_mem_nil _)
  | c :: cs, _, hc => (List.mem_cons.mp hc).elim (fun h => h ▸ Field.induction mk c)
      (Field.induction_list mk cs _)

end

structure Protocol where
  name : String
  fields : List Field

structure Context where
  ptos : List (Option Protocol)

def Context.create : Context := ⟨List.replicate 0xffff none⟩

def Context.addPto (ctx : Context) (id : Nat) (pto : Protocol) : Except Fault Context :=
  if id < ctx.ptos.length then .ok ⟨ctx.ptos.set id (some pto)⟩
  else .error (.undefined .tableOverflow)

def Context.getPto (ctx : Context) (id : Nat) : Option Protocol :=
  if id ≥ 0xffff then none else (ctx.ptos.get? id).getD none

structure Depth (δ : Type) where
  enter : δ → Field → δ
  tooDeep : δ → Bool

def counter : Depth Int := ⟨fun depth _ => depth + 1, fun depth => decide (depth > MAX_DEPTH)⟩

end PtoCodec
