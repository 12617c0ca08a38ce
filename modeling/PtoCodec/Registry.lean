import PtoCodec.Import
import PtoCodec.RoundTrip

namespace PtoCodec

namespace Context

theorem length_create : create.ptos.length = 0xffff := List.length_replicate _ _

theorem getPto_set {ctx : Context} {s : Nat} (hs : s < ctx.ptos.length) (hs' : s < 0xffff) (P : Protocol)
    (j : Nat) : (⟨ctx.ptos.set s (some P)⟩ : Context).getPto j = if j = s then some P else ctx.getPto j := by
  unfold getPto
  simp only [List.get?_eq_getElem?, List.getElem?_set, hs, if_true]
  by_cases hj : j = s
  · subst hj; simp [hs']
  · simp [hj, Ne.symm hj]

structure Holds (ctx : Context) (reg : Nat → Option Protocol) : Prop where
  length : ctx.ptos.length = 0xffff
  getPto : ∀ j, ctx.getPto j = reg j

end Context

theorem importPto_eq_ok {ctx ctx' : Context} {id : BitVec 64} {name : String} {schema : LuaValue}
    {extra : List LuaValue} (h : importPto ctx id name schema extra = .ok ctx') :
    ∃ fields, importField (extra.getLastD schema) 1 = .ok fields ∧ toUInt16 id.toInt < ctx.ptos.length ∧
      ctx' = ⟨ctx.ptos.set (toUInt16 id.toInt) (some ⟨name, fields⟩)⟩ := by
  simp only [importPto] at h
  split_ifs at h
  obtain ⟨fields, hf, h⟩ := bind_eq_ok.mp h
  simp only [Context.addPto] at h
  split_ifs at h with hs
  cases h
  exact ⟨fields, hf, hs, rfl⟩

theorem importPto_holds {ctx ctx' : Context} {reg : Nat → Option Protocol} {id : BitVec 64} {name : String}
    {schema : LuaValue} {extra : List LuaValue} (hc : ctx.Holds reg)
    (h : importPto ctx id name schema extra = .ok ctx') :
    ∃ fields, importField (extra.getLastD schema) 1 = .ok fields ∧ toUInt16 id.toInt < 0xffff ∧
      ctx'.Holds (Function.update reg (toUInt16 id.toInt) (some ⟨name, fields⟩)) := by
  obtain ⟨fields, hf, hs, rfl⟩ := importPto_eq_ok h
  have hs' := hc.length ▸ hs
  refine ⟨fields, hf, hs', by simpa using hc.length, fun j => ?_⟩
  rw [Context.getPto_set hs hs', Function.update_apply, hc.getPto]

def importAll : Context → List (BitVec 64 × String × LuaValue × List LuaValue) → Except Fault Context
  | ctx, [] => .ok ctx
  | ctx, (id, name, schema, extra) :: reqs => importPto ctx id name schema extra >>= fun ctx => importAll ctx reqs

def registryOf (reg : Nat → Option Protocol) :
    List (BitVec 64 × String × LuaValue × List LuaValue) → Nat → Option Protocol
  | [] => reg
  | (id, name, schema, extra) :: reqs =>
    match importField (extra.getLastD schema) 1 with
    | .ok fields => registryOf (Function.update reg (toUInt16 id.toInt) (some ⟨name, fields⟩)) reqs
    | .error _ => reg

theorem importAll_holds : ∀ {reqs : List (BitVec 64 × String × LuaValue × List LuaValue)} {ctx ctx' : Context}
    {reg : Nat → Option Protocol}, ctx.Holds reg → importAll ctx reqs = .ok ctx' →
      ctx'.Holds (registryOf reg reqs) ∧ ∀ r ∈ reqs, toUInt16 r.1.toInt < 0xffff
  | [], _, _, _, hc, h => by cases h; exact ⟨hc, by simp⟩
  | (id, name, schema, extra) :: reqs, _, _, _, hc, h => by
    obtain ⟨c1, h1, h⟩ := bind_eq_ok.mp h
    obtain ⟨fields, hf, hs, hc1⟩ := importPto_holds hc h1
    obtain ⟨hc', hreqs⟩ := importAll_holds hc1 h
    refine ⟨by simp only [registryOf, hf]; exact hc', ?_⟩
    simp only [List.mem_cons, forall_eq_or_imp]
    exact ⟨hs, hreqs⟩

theorem importField_table (arr : List LuaValue) (hash : List (String × LuaValue)) (depth : Int) :
    importField (.table arr hash) depth = importEntries arr (toInt arr.length).toNat depth := by
  rw [importField]

theorem importPto_slot_overflow :
    importPto Context.create 0xffff "p" (.table [] []) [] = .error (.undefined .tableOverflow) ∧
      ∃ ctx, importPto Context.create 0x10005 "p" (.table [] []) [] = .ok ctx ∧ ctx.getPto 5 = some ⟨"p", []⟩ := by
  have hf : importField (.table [] []) 1 = .ok [] := by rw [importField_table]; rfl
  have h1 : toUInt16 (0xffff : BitVec 64).toInt = 0xffff := by decide
  have h5 : toUInt16 (0x10005 : BitVec 64).toInt = 5 := by decide
  refine ⟨?_, ⟨Context.create.ptos.set 5 (some ⟨"p", []⟩)⟩, ?_, ?_⟩
  · simp only [importPto, h1, List.getLastD_nil, hf, ok_bind, Context.addPto, Context.length_create]
    rfl
  · simp only [importPto, h5, List.getLastD_nil, hf, ok_bind, Context.addPto, Context.length_create]
    rfl
  · rw [Context.getPto_set (by rw [Context.length_create]; decide) (by decide), if_pos rfl]

def schemaOf : Nat → LuaValue
  | 0 => .table [.table [] [("type", .integer 0), ("array", .boolean false), ("name", .string [120])]] []
  | n + 1 => .table [.table [] [("type", .integer 6), ("array", .boolean false), ("name", .string [109]),
      ("pto", schemaOf n)]] []

theorem importField_single (x : LuaValue) (hash : List (String × LuaValue)) (depth : Int) :
    importField (.table [x] hash) depth = importEntry x depth >>= fun p => .ok [p.1] := by
  rw [importField_table, List.length_singleton, toInt_of_le (by decide), Int.toNat_ofNat]
  simp only [importEntries, ok_bind]

theorem importField_schemaOf : ∀ n (depth : Int), importField (schemaOf n) depth = .ok (chain n)
  | 0, depth => by rw [schemaOf, importField]; rfl
  | n + 1, depth => by
    have h6 : (6 : Int) = EType.pto.code := rfl
    have hm : cName [109] = "m" := rfl
    rw [schemaOf, importField_single, importEntry]
    simp [LuaValue.getfield, LuaValue.lookup, importChildren, importField_schemaOf n, LuaValue.tostring, h6, hm,
      chain]

theorem importPto_schemaOf (n : Nat) :
    importPto Context.create 1 "chain" (schemaOf n) [] =
      .ok ⟨Context.create.ptos.set 1 (some ⟨"chain", chain n⟩)⟩ := by
  have h1 : toUInt16 (1 : BitVec 64).toInt = 1 := by decide
  have ht : (schemaOf n).type = .table := by cases n <;> rfl
  simp only [importPto, h1, ht, List.getLastD_nil, importField_schemaOf, ok_bind, Context.addPto,
    Context.length_create]
  rfl

end PtoCodec
