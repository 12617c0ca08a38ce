import PtoCodec.DecodeBounds

namespace PtoCodec

namespace Decoder

structure Prefix (d' d : Decoder) : Prop where
  within : d'.Within
  offset : d'.offset = d.offset
  size : d'.size ≤ d.size
  fits : d.size ≤ INT_MAX
  ptr : ∀ i : Nat, (i : Int) < d'.size → d'.ptr i = d.ptr i

def Below {α : Type} (r' r : Except Fault (α × Decoder)) : Prop :=
  r' = .error (.thrown .badDecode) ∨ (∃ e, r' = .error e ∧ r = .error e) ∨
    ∃ x d' d, r' = .ok (x, d') ∧ r = .ok (x, d) ∧ Prefix d' d

def Stable {α : Type} (read : Decoder → Except Fault (α × Decoder)) : Prop :=
  ∀ {d' d}, Prefix d' d → Below (read d') (read d)

section Below

variable {α β : Type} {d' d : Decoder}

theorem below_ok {x : α} (h : Prefix d' d) : Below (.ok (x, d')) (.ok (x, d)) :=
  .inr (.inr ⟨x, d', d, rfl, rfl, h⟩)

theorem below_error (e : Fault) : Below (.error e : Except Fault (α × Decoder)) (.error e) :=
  .inr (.inl ⟨e, rfl, rfl⟩)

theorem below_bind {r' r : Except Fault (α × Decoder)} {k : α × Decoder → Except Fault (β × Decoder)}
    (h : Below r' r) (hk : ∀ x {d' d}, Prefix d' d → Below (k (x, d')) (k (x, d))) :
    Below (r' >>= k) (r >>= k) := by
  obtain rfl | ⟨e, rfl, rfl⟩ | ⟨x, d', d, rfl, rfl, hp⟩ := h
  · exact .inl rfl
  · exact below_error e
  · exact hk x hp

theorem below_map {r' r : Except Fault (α × Decoder)} {g : α × Decoder → β × Decoder}
    (hg : ∀ x d, g (x, d) = ((g (x, d)).1, d)) (hg' : ∀ x d₁ d₂, (g (x, d₁)).1 = (g (x, d₂)).1)
    (h : Below r' r) : Below (r'.map g) (r.map g) := by
  obtain rfl | ⟨e, rfl, rfl⟩ | ⟨x, d', d, rfl, rfl, hp⟩ := h
  · exact .inl rfl
  · exact below_error e
  · show Below (.ok (g (x, d'))) (.ok (g (x, d)))
    rw [hg x d', hg x d, hg' x d' d]
    exact below_ok hp

theorem stable_map {read : Decoder → Except Fault (α × Decoder)} {g : α × Decoder → β × Decoder}
    (hg : ∀ x d, g (x, d) = ((g (x, d)).1, d)) (hg' : ∀ x d₁ d₂, (g (x, d₁)).1 = (g (x, d₂)).1)
    (hr : Stable read) : Stable fun d => (read d).map g := fun hp => below_map hg hg' (hr hp)

theorem below_antisymm {r' r : Except Fault (α × Decoder)} (h : Below r' r) (h' : Below r r') :
    (∃ e, r' = .error e ∧ r = .error e) ∨ ∃ x d' d, r' = .ok (x, d') ∧ r = .ok (x, d) ∧ d'.offset = d.offset := by
  obtain rfl | he | ⟨x, d', d, rfl, rfl, hp⟩ := h
  · obtain h' | ⟨e, rfl, he⟩ | ⟨_, _, _, -, h', -⟩ := h'
    · exact .inl ⟨_, rfl, h'⟩
    · exact .inl ⟨e, he, rfl⟩
    · cases h'
  · exact .inl he
  · exact .inr ⟨x, d', d, rfl, rfl, hp.offset⟩

end Below

section Reads

variable {d' d : Decoder}

theorem readFixed_eq {d : Decoder} (hw : d.Within) (hfit : d.size ≤ INT_MAX) (k : Nat) :
    d.readFixed k =
      if d.offset + k ≤ d.size then .ok (d.load k, d.skip k)
      else .error (.thrown .badDecode) := by
  have := hw.offset_nonneg
  have := hw.offset_le
  simp only [INT_MAX] at hfit
  simp only [readFixed]
  rw [intResult_of_fits (by simp only [INT_MAX]; omega), ok_bind]
  by_cases hk : d.offset + k ≤ d.size
  · rw [if_neg (by simp only [toSizeT]; omega), if_pos hk, intResult_of_fits (by simp only [INT_MAX]; omega),
      ok_bind]
    rfl
  · rw [if_pos (by simp only [toSizeT]; omega), if_neg hk]

theorem readBytes_eq {d : Decoder} (hw : d.Within) (hfit : d.size ≤ INT_MAX) (k : Nat) :
    d.readBytes k =
      if d.offset + k ≤ d.size then .ok (d.load k, d.skip k)
      else .error (.thrown .badDecode) := by
  have := hw.offset_nonneg
  have := hw.offset_le
  simp only [INT_MAX] at hfit
  simp only [readBytes]
  rw [intResult_of_fits (by simp only [INT_MAX]; omega), ok_bind]
  by_cases hk : d.offset + k ≤ d.size
  · rw [if_neg (by omega), if_pos hk, intResult_of_fits (by simp only [INT_MAX]; omega), ok_bind]
    rfl
  · rw [if_pos (by omega), if_neg hk]

theorem Prefix.load (hp : Prefix d' d) {k : Nat} (hk : d'.offset + k ≤ d'.size) : d'.load k = d.load k := by
  have := hp.within.offset_nonneg
  unfold Decoder.load
  rw [← hp.offset]
  exact List.map_congr_left fun j hj => hp.ptr _ (by simp only [List.mem_range] at hj; omega)

theorem Prefix.within' (hp : Prefix d' d) : d.Within :=
  ⟨hp.offset ▸ hp.within.offset_nonneg, by
    have := hp.within.offset_le; have := hp.size; have := hp.offset; omega⟩

theorem below_take (hp : Prefix d' d) (k : Nat) :
    Below (if d'.offset + k ≤ d'.size then .ok (d'.load k, { d' with offset := d'.offset + k })
      else .error (.thrown .badDecode))
      (if d.offset + k ≤ d.size then .ok (d.load k, d.skip k)
      else .error (.thrown .badDecode)) := by
  by_cases hk : d'.offset + k ≤ d'.size
  · have := hp.size
    have := hp.offset
    rw [if_pos hk, if_pos (by omega), hp.load hk]
    exact below_ok ⟨⟨by have := hp.within.offset_nonneg; simp only [skip]; omega, hk⟩,
      by simp only [skip, hp.offset], hp.size, hp.fits, hp.ptr⟩
  · exact .inl (if_neg hk)

theorem readFixed_stable (k : Nat) : Stable (readFixed · k) := fun hp => by
  dsimp only
  rw [readFixed_eq hp.within (hp.size.trans hp.fits), readFixed_eq hp.within' hp.fits]
  exact below_take hp k

theorem readBytes_stable (k : Nat) : Stable (readBytes · k) := fun hp => by
  dsimp only
  rw [readBytes_eq hp.within (hp.size.trans hp.fits), readBytes_eq hp.within' hp.fits]
  exact below_take hp k

theorem readVarint_stable : Stable readVarint := fun hp => by
  refine below_bind (readFixed_stable 1 hp) fun tag d' d hp => ?_
  dsimp only
  split
  · exact below_ok hp
  · refine below_bind (readBytes_stable _ hp) fun value d' d hp => ?_
    dsimp only
    split_ifs <;> first | exact below_ok hp | exact below_error _

theorem readString_stable : Stable readString := fun hp =>
  below_bind (readFixed_stable 2 hp) fun _ _ _ hp => readBytes_stable _ hp

theorem readBool_stable : Stable readBool := fun hp =>
  below_bind (readFixed_stable 1 hp) fun b _ _ hp => by
    dsimp only
    split_ifs <;> first | exact below_ok hp | exact below_error _

theorem reads_stable :
    Stable readBool ∧ Stable readShort ∧ Stable readInt ∧ Stable readFloat ∧ Stable readDouble ∧
      Stable readStringValue :=
  ⟨readBool_stable,
    stable_map (fun _ _ => rfl) (fun _ _ _ => rfl) (readFixed_stable 2),
    stable_map (fun _ _ => rfl) (fun _ _ _ => rfl) readVarint_stable,
    stable_map (fun _ _ => rfl) (fun _ _ _ => rfl) (readFixed_stable 4),
    stable_map (fun _ _ => rfl) (fun _ _ _ => rfl) (readFixed_stable 8),
    stable_map (fun _ _ => rfl) (fun _ _ _ => rfl) readString_stable⟩

end Reads

section Walk

variable {read : Decoder → Except Fault (LuaValue × Decoder)}

theorem decodeMembers_stable (hr : Stable read) : ∀ is t, Stable (decodeMembers read is t)
  | [], _, _, _, hp => below_ok hp
  | _ :: is, _, _, _, hp => below_bind (hr hp) fun _ _ _ hp => decodeMembers_stable hr is _ hp

theorem decodeValue_stable (hr : Stable read) (f : Field) (parent : LuaValue) :
    Stable (decodeValue read f parent) := fun hp => by
  unfold decodeValue
  split_ifs
  · exact below_bind (readFixed_stable 2 hp) fun _ _ _ hp =>
      below_bind (decodeMembers_stable hr _ _ hp) fun _ _ _ hp => below_ok hp
  · exact below_bind (hr hp) fun _ _ _ hp => below_ok hp

variable {δ : Type} (D : Depth δ)

theorem decodeChildren_stable {depth : δ} :
    ∀ {cs : List Field}, (∀ c ∈ cs, ∀ r, Stable (decodeOne D c depth r)) → ∀ r, Stable (decodeChildren D cs depth r)
  | [], _, _, _, _, hp => below_ok hp
  | c :: cs, hc, _, _, _, hp =>
    below_bind (hc c (List.mem_cons_self c cs) _ hp) fun _ _ _ hp =>
      decodeChildren_stable (fun c' hc' => hc c' (List.mem_cons_of_mem c hc')) _ hp

theorem decodeOne_stable (f : Field) : ∀ depth parent, Stable (decodeOne D f depth parent) := by
  induction f using Field.induction with
  | mk name array type childs ih =>
    intro depth parent d' d hp
    simp only [decodeOne]
    cases ht : EType.ofCode type with
    | none => exact below_error _
    | some t =>
      cases t
      case pto =>
        simp only [decodePto]
        split
        · exact below_error _
        exact decodeValue_stable (fun hp => decodeChildren_stable D (fun c hc => ih c hc _) _ hp) _ _ hp
      all_goals exact decodeValue_stable (by simp only [reads_stable]) _ _ hp

end Walk

end Decoder

open Decoder in
theorem walk_below (P : Protocol) {ptr' ptr : Nat → UInt8} {n' n : Nat} (hn : n' ≤ n) (hfit : n ≤ INT_MAX)
    (hptr : ∀ i < n', ptr' i = ptr i) :
    Below (decodeChildren counter P.fields 1 (.table [] []) ⟨ptr', 0, toInt n'⟩)
      (decodeChildren counter P.fields 1 (.table [] []) ⟨ptr, 0, toInt n⟩) := by
  rw [toInt_of_le (by omega), toInt_of_le hfit]
  exact decodeChildren_stable counter (fun c _ => decodeOne_stable counter c 1) _
    ⟨⟨le_refl _, by simp only; omega⟩, rfl, by simp only; omega, hfit, fun i hi => hptr i (by simp only at hi; omega)⟩

open Decoder in
theorem walk_below_append (P : Protocol) {s t : Bytes} (hlen : (s ++ t).length ≤ INT_MAX) :
    Below (decodeChildren counter P.fields 1 (.table [] []) ⟨fun i => s.getD i 0, 0, toInt s.length⟩)
      (decodeChildren counter P.fields 1 (.table [] []) ⟨fun i => (s ++ t).getD i 0, 0, toInt (s ++ t).length⟩) :=
  walk_below P (by simp) hlen fun i hi => by
    simp only [List.getD_eq_getElem?_getD, List.getElem?_append_left hi]

open Decoder in
theorem walk_size {fs : List Field} {ptr : Nat → UInt8} {n : Nat} {r : LuaValue} {d : Decoder} (hn : n ≤ INT_MAX)
    (h : decodeChildren counter fs 1 (.table [] []) ⟨ptr, 0, toInt n⟩ = .ok (r, d)) : d.size = n := by
  rw [toInt_of_le hn] at h
  exact (decodeChildren_forward counter (fun c _ => decodeOne_forward counter c 1) _ ⟨le_refl _, Int.natCast_nonneg n⟩ h).size

section Decode

variable {mem : Nat → UInt8} {ctx : Context} {id : BitVec 64} {arg4 r : LuaValue}

theorem decodePto_truncated {s t : Bytes} (ht : t ≠ []) (hlen : (s ++ t).length ≤ INT_MAX)
    (h : decodePto mem ctx id (.string (s ++ t)) arg4 = .ok r) :
    decodePto mem ctx id (.string s) arg4 = .error (.luaError "invalid message") := by
  obtain ⟨P, ptr, size, d, hP, hin, hwalk, hend⟩ := decodePto_eq_ok h
  cases hin
  have hlt : s.length < (s ++ t).length := by simpa using List.length_pos.mpr ht
  have hd := walk_size hlen hwalk
  obtain hbad | ⟨e, -, he⟩ | ⟨x, d', d'', h', he, hp⟩ := walk_below_append P hlen
  · unfold decodePto
    dsimp only
    rw [hP]
    dsimp only [decodeInput]
    rw [ok_bind, hbad]
    rfl
  · rw [hwalk] at he
    cases he
  · rw [hwalk] at he
    cases he
    have hs := walk_size (by omega) h'
    have := hp.within.offset_le
    have := hp.offset
    omega

def sampleDecoded : LuaValue := .table [] [("name", .string [104, 105]), ("id", .integer 7)]

theorem decodePto_truncated_sample :
    [105] ≠ ([] : Bytes) ∧ ([3, 7, 2, 0, 104] ++ [105] : Bytes).length ≤ INT_MAX ∧
      decodePto (fun _ => 0) sampleContext 0 (.string ([3, 7, 2, 0, 104] ++ [105])) .nil = .ok sampleDecoded ∧
      decodePto (fun _ => 0) sampleContext 0 (.string [3, 7, 2, 0, 104]) .nil =
        .error (.luaError "invalid message") :=
  have h : decodePto (fun _ => 0) sampleContext 0 (.string ([3, 7, 2, 0, 104] ++ [105])) .nil = .ok sampleDecoded :=
    rfl
  ⟨by decide, by decide, h, decodePto_truncated (by decide) (by decide) h⟩

theorem decodePto_extended {P : Protocol} {s t : Bytes} (hP : ctx.getPto (toUInt16 id.toInt) = some P)
    (ht : t ≠ []) (hlen : (s ++ t).length ≤ INT_MAX) (h : decodePto mem ctx id (.string s) arg4 = .ok r) :
    decodePto mem ctx id (.string (s ++ t)) arg4 = .error (.luaError ("decode protocol:" ++ P.name ++ " error")) := by
  obtain ⟨P', ptr, size, d, hP', hin, hwalk, hend⟩ := decodePto_eq_ok h
  rw [hP] at hP'
  cases hP'
  cases hin
  have hlt : s.length < (s ++ t).length := by simpa using List.length_pos.mpr ht
  have hd := walk_size (by omega) hwalk
  obtain hbad | ⟨e, he, -⟩ | ⟨x, d', d'', he, h', hp⟩ := walk_below_append P hlen
  · rw [hwalk] at hbad
    cases hbad
  · rw [hwalk] at he
    cases he
  · rw [hwalk] at he
    cases he
    have hs := walk_size hlen h'
    unfold decodePto
    dsimp only
    rw [hP]
    dsimp only [decodeInput]
    rw [ok_bind, h']
    dsimp only
    rw [if_pos (by have := hp.offset; omega)]
    rfl

theorem decodePto_extended_sample :
    sampleContext.getPto (toUInt16 (0 : BitVec 64).toInt) = some sampleProtocol ∧ [0] ≠ ([] : Bytes) ∧
      ([3, 7, 2, 0, 104, 105] ++ [0] : Bytes).length ≤ INT_MAX ∧
      decodePto (fun _ => 0) sampleContext 0 (.string [3, 7, 2, 0, 104, 105]) .nil = .ok sampleDecoded ∧
      decodePto (fun _ => 0) sampleContext 0 (.string ([3, 7, 2, 0, 104, 105] ++ [0])) .nil =
        .error (.luaError ("decode protocol:" ++ sampleProtocol.name ++ " error")) :=
  ⟨rfl, by decide, by decide, rfl, decodePto_extended rfl (by decide) (by decide) rfl⟩

theorem decodePto_congr_input {mem' : Nat → UInt8} {arg3 arg3' arg4' : LuaValue} {ptr ptr' : Nat → UInt8}
    {n : Nat} (hn : n ≤ INT_MAX) (h : ∀ P, decodeInput mem P arg3 arg4 = .ok (ptr, n))
    (h' : ∀ P, decodeInput mem' P arg3' arg4' = .ok (ptr', n)) (hptr : ∀ i < n, ptr i = ptr' i) :
    decodePto mem ctx id arg3 arg4 = decodePto mem' ctx id arg3' arg4' := by
  unfold decodePto
  dsimp only
  cases ctx.getPto (toUInt16 id.toInt) with
  | none => rfl
  | some P =>
    dsimp only
    rw [h P, h' P, ok_bind, ok_bind]
    obtain ⟨e, e1, e2⟩ | ⟨x, d, d', e1, e2, ho⟩ :=
      Decoder.below_antisymm (walk_below P le_rfl hn hptr) (walk_below P le_rfl hn fun i hi => (hptr i hi).symm)
    · rw [e1, e2]
    · rw [e1, e2]
      dsimp only
      rw [ho, walk_size hn e1, walk_size hn e2]

theorem decodePto_lightuserdata_eq_string {p : Nat} (h4 : arg4.type ≠ .string)
    (hn : toSizeT arg4.tointeger.toInt ≤ INT_MAX) :
    decodePto mem ctx id (.lightuserdata p) arg4 =
      decodePto mem ctx id (.string ((List.range (toSizeT arg4.tointeger.toInt)).map fun i => mem (p + i))) arg4 :=
  decodePto_congr_input hn (fun _ => rfl) (fun _ => by simp only [decodeInput, List.length_map, List.length_range])
    fun i hi => show mem (p + i) = ((List.range (toSizeT arg4.tointeger.toInt)).map fun i => mem (p + i)).getD i 0 by
      simp [List.getD_eq_getElem?_getD, hi]

theorem decodePto_lightuserdata_eq_string_sample :
    (LuaValue.integer 6).type ≠ .string ∧ toSizeT (LuaValue.integer 6).tointeger.toInt ≤ INT_MAX ∧
      decodePto (fun i => [3, 7, 2, 0, 104, 105].getD (i - 0x1000) 0) sampleContext 0 (.lightuserdata 0x1000)
          (.integer 6) =
        decodePto (fun i => [3, 7, 2, 0, 104, 105].getD (i - 0x1000) 0) sampleContext 0
          (.string ((List.range 6).map fun i => [3, 7, 2, 0, 104, 105].getD (0x1000 + i - 0x1000) 0)) (.integer 6) :=
  ⟨nofun, by decide, decodePto_lightuserdata_eq_string nofun (by decide)⟩

theorem decodePto_lightuserdata_frame {mem' : Nat → UInt8} {p : Nat} (h4 : arg4.type ≠ .string)
    (hn : toSizeT arg4.tointeger.toInt ≤ INT_MAX)
    (hmem : ∀ i < toSizeT arg4.tointeger.toInt, mem (p + i) = mem' (p + i)) :
    decodePto mem ctx id (.lightuserdata p) arg4 = decodePto mem' ctx id (.lightuserdata p) arg4 :=
  decodePto_congr_input hn (fun _ => rfl) (fun _ => rfl) hmem

theorem decodePto_lightuserdata_frame_sample :
    (LuaValue.integer 6).type ≠ .string ∧ toSizeT (LuaValue.integer 6).tointeger.toInt ≤ INT_MAX ∧
      (∀ i < toSizeT (LuaValue.integer 6).tointeger.toInt,
        [3, 7, 2, 0, 104, 105].getD (0x1000 + i - 0x1000) (0 : UInt8) =
          [3, 7, 2, 0, 104, 105, 1, 2].getD (0x1000 + i - 0x1000) 0) ∧
      decodePto (fun i => [3, 7, 2, 0, 104, 105].getD (i - 0x1000) 0) sampleContext 0 (.lightuserdata 0x1000)
          (.integer 6) =
        decodePto (fun i => [3, 7, 2, 0, 104, 105, 1, 2].getD (i - 0x1000) 0) sampleContext 0
          (.lightuserdata 0x1000) (.integer 6) :=
  ⟨nofun, by decide, by decide, decodePto_lightuserdata_frame nofun (by decide) (by decide)⟩

end Decode

end PtoCodec
