import PtoCodec.DecoderSpec
import PtoCodec.DepthLimit

namespace PtoCodec

namespace Encoder

theorem index_of_not_table {r x : LuaValue} {k : String} (hr : r.type ≠ .table) (h : r.index k = .ok x) :
    x = .nil ∨ x = .function 0 := by
  cases r with
  | table => exact absurd rfl hr
  | string s =>
    simp only [LuaValue.index, Except.ok.injEq] at h
    subst h
    split <;> simp
  | _ => cases h

theorem not_kinds_nil_function {f : Field} {x : LuaValue} (hx : x = .nil ∨ x = .function 0) : ¬ Kinds f x := by
  obtain ⟨name, array, type, childs⟩ := f
  have ht : x.type ≠ .table := by rcases hx with rfl | rfl <;> decide
  have hk : scalarKind type ≠ some x.type := by
    unfold scalarKind
    rcases hx with rfl | rfl <;> split <;> simp [LuaValue.type]
  simp only [Kinds]
  split_ifs <;> simp [ht, hk]

theorem encodeFields_sound {record : LuaValue} {fs : List Field} {e : Encoder}
    (h : encodeFields record fs init = .ok e) :
    e.Valid ∧ e.bytes = (Val.record (extractFields fs record)).layout ∧
      (∀ c ∈ fs, Typed counter 1 c (extract c (record.getfield c.name))) ∧ KindsFields fs record := by
  by_cases hr : record.type = .table
  · obtain ⟨arr, hash, rfl⟩ : ∃ arr hash, record = .table arr hash := by
      cases record <;> simp_all [LuaValue.type]
    rw [encodeFields_table] at h
    simpa using encodeChildren_sound counter fs _ 1 valid_init h
  · cases fs with
    | nil => cases h; exact ⟨valid_init, rfl, by simp, trivial⟩
    | cons c cs =>
      obtain ⟨x, hx, h⟩ := bind_eq_ok.mp h
      obtain ⟨e1, h1, -⟩ := bind_eq_ok.mp h
      exact absurd (encodeOne_sound counter c x 1 valid_init h1).2.2.2
        (not_kinds_nil_function (index_of_not_table hr hx))

theorem encodeFields_ok {record : LuaValue} {fs : List Field} (hr : record.type = .table)
    (hk : KindsFields fs record) (ht : ∀ c ∈ fs, Typed counter 1 c (extract c (record.getfield c.name)))
    (hroom : (Val.record (extractFields fs record)).layout.length ≤ 2 ^ 30) :
    ∃ e, encodeFields record fs init = .ok e ∧ e.bytes = (Val.record (extractFields fs record)).layout := by
  obtain ⟨arr, hash, rfl⟩ : ∃ arr hash, record = .table arr hash := by
    cases record <;> simp_all [LuaValue.type]
  obtain ⟨e, h, -, hb⟩ := encodeChildren_ok counter fs _ 1 hk ht valid_init (by simpa using hroom)
  exact ⟨e, by rw [encodeFields_table, h], by simpa using hb⟩

end Encoder

theorem encodePto_eq_ok {ctx : Context} {id : BitVec 64} {record : LuaValue} {bytes : Bytes}
    (h : encodePto ctx id record = .ok bytes) :
    ∃ P e, ctx.getPto (toUInt16 id.toInt) = some P ∧ Encoder.encodeFields record P.fields Encoder.init = .ok e ∧
      bytes = e.bytes := by
  simp only [encodePto] at h
  split at h
  · cases h
  rename_i P hP
  split at h <;> try cases h
  exact ⟨P, _, hP, ‹_›, rfl⟩

theorem encodePto_of_encodeFields {ctx : Context} {id : BitVec 64} {P : Protocol} {record : LuaValue}
    {e : Encoder} (hP : ctx.getPto (toUInt16 id.toInt) = some P)
    (h : Encoder.encodeFields record P.fields Encoder.init = .ok e) : encodePto ctx id record = .ok e.bytes := by
  simp only [encodePto, hP, h]; rfl

def sampleProtocol : Protocol :=
  ⟨"sample", [⟨"id", false, EType.int.code, []⟩, ⟨"name", false, EType.string.code, []⟩]⟩

def sampleContext : Context := ⟨[some sampleProtocol]⟩

def sampleRecord : LuaValue := .table [] [("id", .integer 7), ("name", .string [104, 105])]

namespace Decoder

theorem at_input (s : Bytes) (h : s.length ≤ INT_MAX) :
    (⟨fun i => s.getD i 0, 0, toInt s.length⟩ : Decoder).At s := by
  rw [toInt_of_le h]
  exact ⟨le_refl _, by simp, h, fun j hj => by simp [List.getElem?_eq_getElem hj]⟩

theorem decodeChildren_record {fs : List Field} {v : LuaValue}
    (ht : ∀ c ∈ fs, Typed counter 1 c (extract c (v.getfield c.name))) {dec : Decoder} {rest : Bytes}
    (h : dec.At ((Val.record (extractFields fs v)).layout ++ rest)) :
    decodeChildren counter fs 1 (.table [] []) dec =
      .ok ((Val.record (extractFields fs v)).conc, dec.skip (Val.record (extractFields fs v)).layout.length) :=
  decodeChildren_layout counter (extractFields_names fs v) (by
    rw [zip_extractFields]
    simp only [List.forall_mem_map]
    exact fun c hc _ _ _ h => decodeOne_layout counter (ht c hc) h) h

end Decoder

theorem decodePto_layout {mem : Nat → UInt8} {ctx : Context} {id : BitVec 64} {P : Protocol}
    {v arg4 : LuaValue} (hP : ctx.getPto (toUInt16 id.toInt) = some P)
    (ht : ∀ c ∈ P.fields, Typed counter 1 c (extract c (v.getfield c.name)))
    (hlen : (Val.record (extractFields P.fields v)).layout.length ≤ INT_MAX) :
    decodePto mem ctx id (.string (Val.record (extractFields P.fields v)).layout) arg4 =
      .ok (Val.record (extractFields P.fields v)).conc := by
  have h := @Decoder.decodeChildren_record P.fields v ht _ []
    (by rw [List.append_nil]; exact Decoder.at_input _ hlen)
  rw [toInt_of_le hlen] at h
  simp only [decodePto, hP, decodeInput, ok_bind, toInt_of_le hlen, h]
  simp [Decoder.skip]

theorem encodePto_decodePto_encodePto {mem : Nat → UInt8} {ctx : Context} {id : BitVec 64}
    {P : Protocol} {record arg4 : LuaValue} {bytes : Bytes}
    (hP : ctx.getPto (toUInt16 id.toInt) = some P) (hu : UniqueNames P.fields)
    (h : encodePto ctx id record = .ok bytes) :
    ∃ r, decodePto mem ctx id (.string bytes) arg4 = .ok r ∧ encodePto ctx id r = .ok bytes := by
  obtain ⟨P', e, hP', he, rfl⟩ := encodePto_eq_ok h
  cases hP.symm.trans hP'
  obtain ⟨hv, hb, ht, hk⟩ := Encoder.encodeFields_sound he
  have hlen := hv.length_bytes_le
  rw [hb] at hlen ⊢
  have hsame : ∀ c ∈ P.fields, extract c ((Val.record (extractFields P.fields record)).conc.getfield c.name) =
      extract c (record.getfield c.name) := fun c hc => by
    rw [getfield_conc_extractFields hu.nodup hc]
    exact (extract_conc_extract c (hu.of_mem hc) _).1
  refine ⟨(Val.record (extractFields P.fields record)).conc,
    decodePto_layout hP ht (by simp only [INT_MAX] at *; omega), ?_⟩
  have hk' : KindsFields P.fields (Val.record (extractFields P.fields record)).conc :=
    kindsFields_iff.mpr fun c hc => by
      rw [getfield_conc_extractFields hu.nodup hc]
      exact (extract_conc_extract c (hu.of_mem hc) _).2 (kindsFields_iff.mp hk c hc)
  obtain ⟨e', he', hb'⟩ := Encoder.encodeFields_ok (Val.type_conc_record _) hk'
    (fun c hc => hsame c hc ▸ ht c hc) (by rw [extractFields_congr hsame]; exact hlen)
  rw [encodePto_of_encodeFields hP he', hb', extractFields_congr hsame]

theorem uniqueNames_sample : UniqueNames sampleProtocol.fields := by
  simp [UniqueNames, Field.UniqueNames, sampleProtocol]

theorem encodePto_decodePto_encodePto_sample :
    sampleContext.getPto (toUInt16 (0 : BitVec 64).toInt) = some sampleProtocol ∧
      UniqueNames sampleProtocol.fields ∧ encodePto sampleContext 0 sampleRecord = .ok [3, 7, 2, 0, 104, 105] ∧
      ∃ r, decodePto (fun _ => 0) sampleContext 0 (.string [3, 7, 2, 0, 104, 105]) .nil = .ok r ∧
        encodePto sampleContext 0 r = .ok [3, 7, 2, 0, 104, 105] :=
  ⟨rfl, uniqueNames_sample, rfl,
    @encodePto_decodePto_encodePto (fun _ => 0) sampleContext 0 sampleProtocol sampleRecord .nil _ rfl
      uniqueNames_sample rfl⟩

def dupContext : Context :=
  ⟨[some ⟨"dup", [⟨"a", false, EType.int.code, []⟩, ⟨"a", false, EType.short.code, []⟩]⟩]⟩

theorem encodePto_decodePto_encodePto_dup :
    encodePto dupContext 0 (.table [] [("a", .integer 70000)]) = .ok [7, 112, 17, 1, 112, 17] ∧
      decodePto (fun _ => 0) dupContext 0 (.string [7, 112, 17, 1, 112, 17]) .nil =
        .ok (.table [] [("a", .integer 4464)]) ∧
      encodePto dupContext 0 (.table [] [("a", .integer 4464)]) = .ok [5, 112, 17, 112, 17] :=
  ⟨rfl, rfl, rfl⟩

theorem roundTrip {mem : Nat → UInt8} {ctx : Context} {id : BitVec 64} {P : Protocol} {v arg4 : LuaValue}
    (hP : ctx.getPto (toUInt16 id.toInt) = some P) (hu : UniqueNames P.fields)
    (hh : heightList P.fields < MAX_DEPTH) (hv : v.type = .table) (hc : ConformsFields P.fields v)
    (hroom : (Val.record (extractFields P.fields v)).layout.length ≤ 2 ^ 30) :
    (∃ e, Encoder.encodeFields v P.fields Encoder.init = .ok e ∧
      e.bytes = (Val.record (extractFields P.fields v)).layout ∧
      ∀ rest : Bytes, e.bytes.length + rest.length ≤ INT_MAX →
        ∃ r d, Decoder.decodeChildren counter P.fields 1 (.table [] [])
            ⟨fun i => (e.bytes ++ rest).getD i 0, 0, toInt (e.bytes ++ rest).length⟩ = .ok (r, d) ∧
          AgreeFields P.fields r v ∧ d.offset = e.bytes.length) ∧
    ∃ bytes r, encodePto ctx id v = .ok bytes ∧ decodePto mem ctx id (.string bytes) arg4 = .ok r ∧
      AgreeFields P.fields r v := by
  have hc' := conformsFields_iff.mp hc
  have hk : KindsFields P.fields v := kindsFields_iff.mpr fun c h => kinds_of_conforms c (hc' c h)
  have ht : ∀ c ∈ P.fields, Typed counter 1 c (extract c (v.getfield c.name)) := fun c h =>
    typed_of_conforms c (hc' c h) (by have := height_le_heightList h; simp only [MAX_DEPTH] at *; omega)
  have hag : AgreeFields P.fields (Val.record (extractFields P.fields v)).conc v :=
    agreeFields_iff.mpr fun c h => by
      rw [getfield_conc_extractFields hu.nodup h]
      exact agree_of_conforms c (hu.of_mem h) (hc' c h)
  obtain ⟨e, he, hb⟩ := Encoder.encodeFields_ok hv hk ht hroom
  refine ⟨⟨e, he, hb, fun rest hrest => ?_⟩, e.bytes, (Val.record (extractFields P.fields v)).conc,
    encodePto_of_encodeFields hP he,
    hb ▸ decodePto_layout hP ht (by simp only [INT_MAX] at *; omega), hag⟩
  have hat := Decoder.at_input (e.bytes ++ rest) (by simp only [List.length_append, Nat.cast_add]; omega)
  rw [hb] at hat ⊢
  exact ⟨_, _, Decoder.decodeChildren_record ht hat, hag, by simp [Decoder.skip]⟩

theorem roundTrip_sample :
    sampleContext.getPto (toUInt16 (0 : BitVec 64).toInt) = some sampleProtocol ∧
      UniqueNames sampleProtocol.fields ∧ heightList sampleProtocol.fields < MAX_DEPTH ∧
      sampleRecord.type = .table ∧ ConformsFields sampleProtocol.fields sampleRecord ∧
      (Val.record (extractFields sampleProtocol.fields sampleRecord)).layout.length ≤ 2 ^ 30 ∧
      (∃ e, Encoder.encodeFields sampleRecord sampleProtocol.fields Encoder.init = .ok e ∧
        e.bytes = (Val.record (extractFields sampleProtocol.fields sampleRecord)).layout ∧
        ∀ rest : Bytes, e.bytes.length + rest.length ≤ INT_MAX →
          ∃ r d, Decoder.decodeChildren counter sampleProtocol.fields 1 (.table [] [])
              ⟨fun i => (e.bytes ++ rest).getD i 0, 0, toInt (e.bytes ++ rest).length⟩ = .ok (r, d) ∧
            AgreeFields sampleProtocol.fields r sampleRecord ∧ d.offset = e.bytes.length) ∧
      ∃ bytes r, encodePto sampleContext 0 sampleRecord = .ok bytes ∧
        decodePto (fun _ => 0) sampleContext 0 (.string bytes) .nil = .ok r ∧
        AgreeFields sampleProtocol.fields r sampleRecord := by
  have hc : ConformsFields sampleProtocol.fields sampleRecord := by
    simp [ConformsFields, Conforms, conformsScalar, sampleProtocol, sampleRecord, LuaValue.getfield,
      LuaValue.lookup]
  have hroom : (Val.record (extractFields sampleProtocol.fields sampleRecord)).layout.length ≤ 2 ^ 30 := by
    decide
  exact ⟨rfl, uniqueNames_sample, by decide, rfl, hc, hroom,
    roundTrip rfl uniqueNames_sample (by decide) rfl hc hroom⟩

theorem uniqueNames_chain : ∀ n, UniqueNames (chain n)
  | 0 => by simp [chain, UniqueNames, Field.UniqueNames]
  | n + 1 => by simpa [chain, UniqueNames, Field.UniqueNames] using uniqueNames_chain n

theorem conformsFields_chain : ∀ n, ConformsFields (chain n) (nest n)
  | 0 => by simp [chain, nest, ConformsFields, Conforms, conformsScalar, LuaValue.getfield, LuaValue.lookup]
  | n + 1 => by
    simpa [chain, nest, ConformsFields, Conforms, LuaValue.getfield, LuaValue.lookup, type_nest] using
      conformsFields_chain n

theorem roundTrip_chain :
    UniqueNames (chain 128) ∧ ConformsFields (chain 128) (nest 128) ∧ (nest 128).type = .table ∧
      encodePto ⟨[some ⟨"chain", chain 128⟩]⟩ 0 (nest 128) = .error (.luaError "pto encode too depth") := by
  refine ⟨uniqueNames_chain 128, conformsFields_chain 128, type_nest 128, ?_⟩
  have h := @Encoder.encodeFields_chain 128 (by decide)
  have hP : (⟨[some ⟨"chain", chain 128⟩]⟩ : Context).getPto (toUInt16 (0 : BitVec 64).toInt) =
      some ⟨"chain", chain 128⟩ := rfl
  simp only [encodePto, hP, h]
  rfl

def floatContext : Context := ⟨[some ⟨"float", [⟨"f", false, EType.float.code, []⟩]⟩]⟩

theorem roundTrip_float_integer :
    encodePto floatContext 0 (.table [] [("f", .integer 1)]) = .ok [0, 0, 128, 63] ∧
      decodePto (fun _ => 0) floatContext 0 (.string [0, 0, 128, 63]) .nil =
        .ok (.table [] [("f", .number 0x3FF0000000000000)]) :=
  ⟨rfl, rfl⟩

def intContext : Context := ⟨[some ⟨"int", [⟨"c", false, EType.int.code, []⟩]⟩]⟩

theorem encodePto_fractional_int :
    encodePto intContext 0 (.table [] [("c", .number 0x3FF8000000000000)]) = .ok [0] ∧
      decodePto (fun _ => 0) intContext 0 (.string [0]) .nil = .ok (.table [] [("c", .integer 0)]) :=
  ⟨rfl, rfl⟩

theorem appendInt_readVarint {x : BitVec 64} (hx : x.toInt.natAbs ≤ 2 ^ 56 - 1) :
    ∃ bytes : Bytes, (∀ e : Encoder, e.appendInt x = e.append bytes) ∧
      (∀ e e' : Encoder, e.Valid → e.appendInt x = .ok e' → e'.Valid ∧ e'.bytes = e.bytes ++ bytes) ∧
      (x.toInt = 0 → bytes = [0]) ∧
      (x.toInt ≠ 0 → ∃ l, 1 ≤ l ∧ l ≤ 7 ∧ x.toInt.natAbs < 2 ^ (8 * l) ∧
        (∀ l', 1 ≤ l' → x.toInt.natAbs < 2 ^ (8 * l') → l ≤ l') ∧
        bytes = UInt8.ofNat ((l <<< 1) ||| if 0 < x.toInt then 1 else 0) :: le x.toInt.natAbs l) ∧
      ∀ (s : Bytes) (d : Decoder), d.At (bytes ++ s) → d.readVarint = .ok (x, d.skip bytes.length) := by
  have hx' : x.toInt.natAbs < 2 ^ 56 := by omega
  refine ⟨varint7 x.toInt, fun e => Encoder.appendInt_eq e hx',
    fun e e' hv h => Encoder.append_sound hv (Encoder.appendInt_eq e hx' ▸ h), fun h0 => if_pos h0,
    fun h0 => ?_, fun s d h => Decoder.readVarint_of_At hx' h⟩
  obtain ⟨hl1, hl7, hn⟩ := varintLen_spec hx'
  have htag : ∀ l < 8, ∀ s < 2, (l <<< 1 ||| s) = 2 * l + s := by decide
  refine ⟨varintLen x.toInt.natAbs, hl1, hl7, hn, fun l' h1 h2 => ?_, ?_⟩
  · rw [← Encoder.varintLength_eq]
    exact Encoder.varintLength_least h1 h2
  · rw [varint7, if_neg h0, htag _ (by omega) _ (by split <;> omega)]

theorem appendInt_readVarint_300 :
    (300 : BitVec 64).toInt.natAbs ≤ 2 ^ 56 - 1 ∧
      ∃ bytes : Bytes, (∀ e : Encoder, e.appendInt 300 = e.append bytes) ∧
        (∀ e e' : Encoder, e.Valid → e.appendInt 300 = .ok e' → e'.Valid ∧ e'.bytes = e.bytes ++ bytes) ∧
        ((300 : BitVec 64).toInt = 0 → bytes = [0]) ∧
        ((300 : BitVec 64).toInt ≠ 0 → ∃ l, 1 ≤ l ∧ l ≤ 7 ∧ (300 : BitVec 64).toInt.natAbs < 2 ^ (8 * l) ∧
          (∀ l', 1 ≤ l' → (300 : BitVec 64).toInt.natAbs < 2 ^ (8 * l') → l ≤ l') ∧
          bytes = UInt8.ofNat ((l <<< 1) ||| if 0 < (300 : BitVec 64).toInt then 1 else 0) ::
            le (300 : BitVec 64).toInt.natAbs l) ∧
        ∀ (s : Bytes) (d : Decoder), d.At (bytes ++ s) → d.readVarint = .ok (300, d.skip bytes.length) :=
  ⟨by decide, appendInt_readVarint (by decide)⟩

end PtoCodec
