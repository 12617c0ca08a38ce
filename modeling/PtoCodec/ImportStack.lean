import PtoCodec.Registry
import PtoCodec.StackWalk

namespace PtoCodec

theorem importChildren_eq (depth : Int) :
    ∀ hash : List (String × LuaValue), importChildren hash depth = importField (LuaValue.lookup "pto" hash) depth
  | [] => by rw [importChildren, LuaValue.lookup, importField]
  | (k, v) :: hash => by
    rw [importChildren, LuaValue.lookup]
    split_ifs
    · rfl
    · exact importChildren_eq depth hash

theorem toNat_toInt_le (n : Nat) : (toInt n).toNat ≤ n := by
  simp only [toInt, Int.bmod_def]
  split <;> omega

namespace Stack

theorem getfield_top_table_eq {L : LuaState} {arr : List LuaValue} {hash : List (String × LuaValue)} (k : String) :
    (L.pushed (.table arr hash)).getfield (-1) k = (L.pushed (.table arr hash)).push (LuaValue.lookup k hash) := by
  simp only [LuaState.getfield, LuaState.get_pushed_top, LuaValue.index_table, LuaValue.getfield, ok_bind]

theorem getfield_top_table {L : LuaState} {arr : List LuaValue} {hash : List (String × LuaValue)} (k : String)
    (h : L.top + 1 < L.limit) :
    (L.pushed (.table arr hash)).getfield (-1) k =
      .ok ((L.pushed (.table arr hash)).pushed (LuaValue.lookup k hash)) :=
  (getfield_top_table_eq k).trans (LuaState.push_of_lt (by rw [LuaState.top_pushed]; exact h) _)

theorem limit_checkstack_args {L : LuaState} (h4 : L.top = 4) :
    (L.checkstack (MAX_DEPTH * 2 + 8).toNat).limit = max L.limit 268 := by
  rw [LuaState.limit_checkstack, h4]
  rfl

def ImportsOnStack (children : Nat → Int → LuaState → Except Fault (LuaState × List Field)) (fuel : Nat) : Prop :=
  ∀ schema depth fs, PtoCodec.importField schema depth = .ok fs → heightList fs < fuel →
    ∀ L : LuaState, 0 < L.top → L.get L.top = schema → L.top + 2 * heightList fs + 2 ≤ L.limit →
      children L.top depth L = .ok (L, fs)

section OnStack

variable {children : Nat → Int → LuaState → Except Fault (LuaState × List Field)} {fuel : Nat}

theorem importEntry_onStack (hc : ImportsOnStack children fuel) {x : LuaValue} {depth depth' : Int} {f : Field}
    (h : PtoCodec.importEntry x depth = .ok (f, depth')) (hh : f.height ≤ fuel) {L : LuaState}
    (hroom : L.top + 2 * f.height + 2 ≤ L.limit) :
    importEntry children depth (L.pushed x) = .ok (L.pushed x, f, depth') := by
  obtain ⟨arr, hash, rfl⟩ : ∃ arr hash, x = .table arr hash := by
    cases x <;> first | exact ⟨_, _, rfl⟩ | (simp only [PtoCodec.importEntry] at h; cases h)
  have h1 : L.top + 1 < L.limit := by omega
  simp only [PtoCodec.importEntry, LuaValue.getfield] at h
  simp only [importEntry, getfield_top_table _ h1, ok_bind, LuaState.get_pushed_top, LuaState.pop_pushed]
  cases hname : (LuaValue.lookup "name" hash).tostring with
  | none =>
    simp only [hname] at h
    split_ifs at h
  | some name =>
    simp only [hname] at h ⊢
    split_ifs at h ⊢ with hr hpto
    · obtain ⟨childs, hchilds, h⟩ := bind_eq_ok.mp h
      cases h
      simp only [Field.height, if_pos hpto] at hh hroom
      rw [importChildren_eq] at hchilds
      rw [hc _ _ _ hchilds (by omega) _ (by simp only [LuaState.top_pushed]; omega) (LuaState.get_top_pushed _ _)
          (by simp only [LuaState.top_pushed, LuaState.limit_pushed]; omega)]
      simp only [ok_bind, LuaState.pop_pushed]
    · cases h
      rfl

theorem importEntries_onStack (hc : ImportsOnStack children fuel) {index : Nat} {arr : List LuaValue}
    {hash : List (String × LuaValue)} {L : LuaState} (h0 : 0 < index) (hi : index ≤ L.top)
    (hL : L.get index = .table arr hash) :
    ∀ {size j : Nat} {depth : Int} {fs : List Field}, j + size ≤ arr.length →
      PtoCodec.importEntries (arr.drop j) size depth = .ok fs → heightList fs ≤ fuel →
      L.top + 2 * heightList fs + 2 ≤ L.limit →
      importEntries children index (List.range' (j + 1) size) depth L = .ok (L, fs)
  | 0, j, depth, fs, _, h, _, _ => by
    have : PtoCodec.importEntries (arr.drop j) 0 depth = .ok [] := by
      cases arr.drop j <;> rfl
    cases h.symm.trans this
    rfl
  | size + 1, j, depth, fs, hj, h, hh, hroom => by
    have hjl : j < arr.length := by omega
    rw [List.drop_eq_getElem_cons hjl, PtoCodec.importEntries] at h
    obtain ⟨⟨field, depth'⟩, hf, h⟩ := bind_eq_ok.mp h
    obtain ⟨fields, hfs, h⟩ := bind_eq_ok.mp h
    cases h
    simp only [heightList] at hh hroom
    have hget : (L.get index).rawgeti (j + 1) = arr[j] := by
      simp [hL, LuaValue.rawgeti, hjl]
    have hpush : L.rawgeti index (j + 1) = .ok (L.pushed arr[j]) := by
      rw [LuaState.rawgeti, hget]
      exact LuaState.push_of_lt (by omega) _
    rw [List.range'_succ, importEntries, hL]
    have he := importEntry_onStack hc hf (L := L) (by omega) (by omega)
    simp only [LuaValue.type, if_true, ← hL, hpush, ok_bind, he, LuaState.pop_pushed,
      importEntries_onStack hc h0 hi hL (by omega) hfs (by omega) (by omega)]

end OnStack

theorem importField_onStack : ∀ fuel, ImportsOnStack (importField fuel) fuel
  | 0 => fun _ _ _ _ hh => absurd hh (Nat.not_lt_zero _)
  | fuel + 1 => fun schema depth fs h hh L h0 hL hroom => by
    rw [importField]
    cases schema with
    | table arr hash =>
      rw [importField_table] at h
      rw [hL, LuaValue.rawlen_table]
      exact importEntries_onStack (importField_onStack fuel) h0 le_rfl hL (by simpa using toNat_toInt_le _)
        (by simpa using h) (by omega) hroom
    | string s =>
      rw [PtoCodec.importField] at h
      split_ifs at h with hs
      cases h
      rw [hL]
      simp only [LuaValue.rawlen, Int.toNat_eq_zero.mpr (not_lt.mp hs), List.range'_zero]
      rfl
    | _ =>
      rw [PtoCodec.importField] at h
      cases h
      simp only [hL, LuaValue.rawlen, toInt_of_le (show (0 : Nat) ≤ INT_MAX by decide), Nat.cast_zero,
        Int.toNat_zero, List.range'_zero]
      rfl

theorem importPto_onStack {ctx : Context} {id : BitVec 64} {name : String} {L : LuaState} {fs : List Field}
    (h4 : L.top = 4) (hf : PtoCodec.importField (L.get 4) 1 = .ok fs) (hh : heightList fs ≤ 131) :
    importPto ctx id name L = PtoCodec.importPto ctx id name (L.get 4) [] := by
  have hroom := limit_checkstack_args (L := L) h4
  simp only [importPto, PtoCodec.importPto, h4, List.getLastD_nil, hf, lt_irrefl, if_false]
  split_ifs
  · rfl
  · rfl
  · rw [importField_onStack _ _ _ _ hf (by omega) (L.checkstack (MAX_DEPTH * 2 + 8).toNat)
      (by rw [LuaState.top_checkstack, h4]; omega) (by rw [LuaState.top_checkstack, h4, LuaState.get_checkstack]; rfl)
      (by rw [LuaState.top_checkstack, hroom, h4]; omega)]
    rfl

theorem importField_schemaOf_overflow :
    ∀ (n fuel : Nat) (depth : Int) (L : LuaState), 0 < L.top → L.get L.top = schemaOf n →
      L.limit < L.top + 2 * n + 2 → importField fuel L.top depth L = .error (.undefined .stackOverflow)
  | _, 0, _, _, _, _, _ => rfl
  | n, fuel + 1, depth, L, h0, hL, hroom => by
    have hlen : (toInt (schemaOf n).rawlen).toNat = 1 := by
      rw [show (schemaOf n).rawlen = 1 by cases n <;> rfl, toInt_of_le (by decide)]
      rfl
    have htab : (schemaOf n).type = .table := by cases n <;> rfl
    rw [importField, hL, hlen, List.range'_one, importEntries, hL, if_pos htab, LuaState.rawgeti, hL]
    by_cases h1 : L.top < L.limit
    swap
    · rw [LuaState.push_of_le (by omega)]
      rfl
    rw [LuaState.push_of_lt h1]
    by_cases h2 : L.top + 1 < L.limit
    swap
    · cases n <;>
      simp only [ok_bind, importEntry, schemaOf, LuaValue.rawgeti, Nat.sub_self, List.get?_cons_zero,
        Option.getD_some, getfield_top_table_eq, LuaState.push_of_le (show (L.pushed _).limit ≤ (L.pushed _).top by
          simp only [LuaState.top_pushed, LuaState.limit_pushed]; omega)] <;>
      rfl
    cases n with
    | zero => omega
    | succ n =>
      have h2' : ∀ v, (L.pushed v).top < (L.pushed v).limit := fun v => by
        simp only [LuaState.top_pushed, LuaState.limit_pushed]; omega
      simp only [ok_bind, importEntry, schemaOf, LuaValue.rawgeti, Nat.sub_self, List.get?_cons_zero,
        Option.getD_some, getfield_top_table_eq, LuaState.push_of_lt (h2' _), LuaState.get_pushed_top,
        LuaState.pop_pushed, LuaValue.lookup, String.reduceEq, if_true, if_false, LuaValue.tointeger_integer]
      rw [importField_schemaOf_overflow n fuel (depth + 1) _ (by simp only [LuaState.top_pushed]; omega)
        (LuaState.get_top_pushed _ _) (by simp only [LuaState.top_pushed, LuaState.limit_pushed]; omega)]
      rfl

end Stack

theorem heightList_chain : ∀ n, heightList (chain n) = n
  | 0 => rfl
  | n + 1 => by simp [chain, heightList, Field.height, heightList_chain n]

theorem importPto_chain :
    (∀ n ≤ 131, ∀ L : LuaState, L.top = 4 → L.get 4 = schemaOf n →
      Stack.importPto Context.create 1 "chain" L = .ok ⟨Context.create.ptos.set 1 (some ⟨"chain", chain n⟩)⟩) ∧
    (∀ n, 132 ≤ n → ∀ L : LuaState, L.top = 4 → L.get 4 = schemaOf n → L.limit ≤ 268 →
      Stack.importPto Context.create 1 "chain" L = .error (.undefined .stackOverflow)) ∧
    encodePto ⟨Context.create.ptos.set 1 (some ⟨"chain", chain 128⟩)⟩ 1 (nest 128) =
      .error (.luaError "pto encode too depth") ∧
    ∀ mem s arg4, decodePto mem ⟨Context.create.ptos.set 1 (some ⟨"chain", chain 128⟩)⟩ 1 (.string s) arg4 =
      .error (.luaError "pto decode too depth") := by
  have hP : (⟨Context.create.ptos.set 1 (some ⟨"chain", chain 128⟩)⟩ : Context).getPto 1 =
      some ⟨"chain", chain 128⟩ := by
    rw [Context.getPto_set (by rw [Context.length_create]; decide) (by decide), if_pos rfl]
  have h1 : toUInt16 (1 : BitVec 64).toInt = 1 := by decide
  refine ⟨fun n hn L h4 hL => ?_, fun n hn L h4 hL hlim => ?_, ?_, fun mem s arg4 => ?_⟩
  · rw [Stack.importPto_onStack h4 (hL ▸ importField_schemaOf n 1) (by rw [heightList_chain]; exact hn), hL,
      importPto_schemaOf]
  · have htab : (schemaOf n).type = .table := by cases n <;> rfl
    have hroom := Stack.limit_checkstack_args (L := L) h4
    simp only [Stack.importPto, hL, htab, h1, ne_eq, not_true_eq_false, if_false]
    rw [if_neg (by decide), Stack.importField_schemaOf_overflow n _ 1 _
      (by rw [LuaState.top_checkstack, h4]; omega)
      (by rw [LuaState.top_checkstack, h4, LuaState.get_checkstack]; exact hL)
      (by rw [hroom, LuaState.top_checkstack, h4]; omega)]
    rfl
  · simp only [encodePto, h1, hP, Encoder.encodeFields_chain (show MAX_DEPTH ≤ (128 : Nat) by decide)]
    rfl
  · simp only [decodePto, h1, hP, decodeInput, ok_bind,
      Decoder.decodeChildren_chain 127 (show MAX_DEPTH < 1 + ((127 : Nat) + 1 : Int) by decide)]
    rfl

end PtoCodec
