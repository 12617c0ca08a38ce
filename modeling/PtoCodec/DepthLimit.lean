import PtoCodec.Conformance
import PtoCodec.Decoder

namespace PtoCodec

structure Depth.Sim {δ₁ δ₂ : Type} (D₁ : Depth δ₁) (D₂ : Depth δ₂) (R : δ₁ → δ₂ → Prop) : Prop where
  enter : ∀ {d p} f, R d p → R (D₁.enter d f) (D₂.enter p f)
  tooDeep : ∀ {d p}, R d p → D₁.tooDeep d = D₂.tooDeep p

def pathDepth : Depth (List Field) :=
  ⟨fun path f => path ++ [f], fun path => decide (MAX_DEPTH - 1 < path.length)⟩

theorem counter_sim_pathDepth : Depth.Sim counter pathDepth fun d path => d = 1 + path.length where
  enter _ h := by simp only [counter, pathDepth, List.length_append, List.length_singleton, h]; omega
  tooDeep h := by simp only [counter, pathDepth, h, MAX_DEPTH, decide_eq_decide]; omega

section Simulation

variable {δ₁ δ₂ : Type} {D₁ : Depth δ₁} {D₂ : Depth δ₂} {R : δ₁ → δ₂ → Prop}

namespace Encoder

theorem encodePto_congr {f : Field} {c₁ : LuaValue → δ₁ → Encoder → Except Fault Encoder}
    {c₂ : LuaValue → δ₂ → Encoder → Except Fault Encoder} {d : δ₁} {p : δ₂}
    (hdeep : D₁.tooDeep (D₁.enter d f) = D₂.tooDeep (D₂.enter p f))
    (hc : ∀ x e, c₁ x (D₁.enter d f) e = c₂ x (D₂.enter p f) e) (v : LuaValue) (e : Encoder) :
    encodePto D₁ f c₁ v d e = encodePto D₂ f c₂ v p e := by
  simp only [encodePto, hdeep, hc]

theorem encodeChildren_congr {d : δ₁} {p : δ₂} :
    ∀ {cs : List Field}, (∀ c ∈ cs, ∀ v, encodeOne D₁ c v d = encodeOne D₂ c v p) →
      ∀ v, encodeChildren D₁ cs v d = encodeChildren D₂ cs v p
  | [], _, _ => rfl
  | c :: cs, h, v => by
    funext e
    simp only [encodeChildren, h c (List.mem_cons_self c cs),
      encodeChildren_congr (fun c' hc' => h c' (List.mem_cons_of_mem c hc')) v]

theorem encodeOne_sim (hs : Depth.Sim D₁ D₂ R) (f : Field) :
    ∀ v {d p}, R d p → encodeOne D₁ f v d = encodeOne D₂ f v p := by
  induction f using Field.induction with
  | mk name array type childs ih =>
    intro v d p hr
    funext e
    simp only [encodeOne]
    cases EType.ofCode type with
    | none => rfl
    | some t =>
      cases t
      case pto =>
        exact encodePto_congr (hs.tooDeep (hs.enter _ hr))
          (fun x e => by rw [encodeChildren_congr fun c hc v => ih c hc v (hs.enter _ hr)]) v e
      all_goals rfl

end Encoder

namespace Decoder

theorem decodePto_congr {f : Field}
    {c₁ : δ₁ → LuaValue → Decoder → Except Fault (LuaValue × Decoder)}
    {c₂ : δ₂ → LuaValue → Decoder → Except Fault (LuaValue × Decoder)} {d : δ₁} {p : δ₂}
    (hdeep : D₁.tooDeep (D₁.enter d f) = D₂.tooDeep (D₂.enter p f))
    (hc : ∀ r dec, c₁ (D₁.enter d f) r dec = c₂ (D₂.enter p f) r dec) (parent : LuaValue) (dec : Decoder) :
    decodePto D₁ f c₁ parent d dec = decodePto D₂ f c₂ parent p dec := by
  simp only [decodePto, hdeep, hc]

theorem decodeChildren_congr {d : δ₁} {p : δ₂} :
    ∀ {cs : List Field}, (∀ c ∈ cs, ∀ r, decodeOne D₁ c d r = decodeOne D₂ c p r) →
      ∀ r, decodeChildren D₁ cs d r = decodeChildren D₂ cs p r
  | [], _, _ => rfl
  | c :: cs, h, r => by
    funext dec
    simp only [decodeChildren, h c (List.mem_cons_self c cs),
      decodeChildren_congr (fun c' hc' => h c' (List.mem_cons_of_mem c hc'))]

theorem decodeOne_sim (hs : Depth.Sim D₁ D₂ R) (f : Field) :
    ∀ {d p}, R d p → ∀ parent, decodeOne D₁ f d parent = decodeOne D₂ f p parent := by
  induction f using Field.induction with
  | mk name array type childs ih =>
    intro d p hr parent
    funext dec
    simp only [decodeOne]
    cases EType.ofCode type with
    | none => rfl
    | some t =>
      cases t
      case pto =>
        exact decodePto_congr (hs.tooDeep (hs.enter _ hr))
          (fun r dec => by rw [decodeChildren_congr fun c hc => ih c hc (hs.enter _ hr)]) parent dec
      all_goals rfl

end Decoder

end Simulation

def Avoids {α : Type} (r : Except Fault α) (bad : Fault) : Prop := r ≠ .error bad

section Avoids

variable {α β : Type} {bad : Fault}

theorem avoids_ok (a : α) : Avoids (.ok a) bad := fun h => by cases h

theorem avoids_error_iff {err : Fault} : Avoids (.error err : Except Fault α) bad ↔ err ≠ bad :=
  ⟨fun h h' => h (h' ▸ rfl), fun h h' => h (by cases h'; rfl)⟩

theorem avoids_error {err : Fault} (h : err ≠ bad) : Avoids (.error err : Except Fault α) bad :=
  avoids_error_iff.mpr h

theorem avoids_bind {x : Except Fault α} {f : α → Except Fault β} (hx : Avoids x bad)
    (hf : ∀ a, Avoids (f a) bad) : Avoids (x >>= f) bad := by
  cases x with
  | error => exact avoids_error (avoids_error_iff.mp hx)
  | ok a => exact hf a

theorem avoids_map {x : Except Fault α} {f : α → β} (hx : Avoids x bad) : Avoids (x.map f) bad := by
  cases x with
  | error => exact avoids_error (avoids_error_iff.mp hx)
  | ok a => exact avoids_ok _

def WalkFault : Fault → Prop
  | .thrown (.tooDepth _) => True
  | .undefined .stackOverflow => True
  | _ => False

theorem avoids_of_walkFault {err : Fault} (hbad : WalkFault bad) (herr : ¬ WalkFault err) :
    Avoids (.error err : Except Fault α) bad :=
  avoids_error fun h => herr (h ▸ hbad)

theorem intResult_avoids (hbad : WalkFault bad) (x : Int) : Avoids (intResult x) bad := by
  unfold intResult
  split
  · exact avoids_ok _
  · exact avoids_of_walkFault hbad id

namespace Encoder

theorem grow_avoids (hbad : WalkFault bad) : ∀ (fuel : Nat) (nsize need : Int), Avoids (grow fuel nsize need) bad
  | 0, _, _ => avoids_of_walkFault hbad id
  | fuel + 1, nsize, need => by
    unfold grow
    split
    · exact avoids_bind (intResult_avoids hbad _) fun _ => grow_avoids hbad fuel _ _
    · exact avoids_ok _

theorem append_avoids (hbad : WalkFault bad) (e : Encoder) (data : Bytes) : Avoids (e.append data) bad := by
  unfold append reserve
  refine avoids_bind (avoids_bind (intResult_avoids hbad _) fun _ => ?_) fun _ =>
    avoids_bind (intResult_avoids hbad _) fun _ => avoids_ok _
  split
  · exact avoids_ok _
  · exact avoids_bind (avoids_bind (intResult_avoids hbad _) fun _ => grow_avoids hbad _ _ _) fun _ => avoids_ok _

theorem appendInt_avoids (hbad : WalkFault bad) (e : Encoder) (val : BitVec 64) :
    Avoids (e.appendInt val) bad := by
  unfold appendInt
  split_ifs <;> first | exact append_avoids hbad _ _ | exact avoids_of_walkFault hbad id

theorem beginArray_avoids (hbad : WalkFault bad) (f : Field) (v : LuaValue) (e : Encoder) :
    Avoids (beginArray f v e) bad := by
  unfold beginArray
  split_ifs
  · exact avoids_of_walkFault hbad id
  · exact avoids_of_walkFault hbad id
  · exact avoids_map (append_avoids hbad _ _)

theorem encodeMembers_avoids (hbad : WalkFault bad) {kind : LuaType} {expect name : String}
    {put : LuaValue → Encoder → Except Fault Encoder} (hput : ∀ x e, Avoids (put x e) bad) :
    ∀ xs e, Avoids (encodeMembers kind expect name put xs e) bad
  | [], _ => avoids_ok _
  | x :: xs, e => by
    unfold encodeMembers
    split_ifs
    · exact avoids_of_walkFault hbad id
    · exact avoids_bind (hput x e) fun e => encodeMembers_avoids hbad hput xs e

theorem encodeScalar_avoids (hbad : WalkFault bad) {kind : LuaType} {expect : String}
    {put : Field → Bool → LuaValue → Encoder → Except Fault Encoder}
    (hput : ∀ f array x e, Avoids (put f array x e) bad) (f : Field) (v : LuaValue) (e : Encoder) :
    Avoids (encodeScalar kind expect put f v e) bad := by
  unfold encodeScalar
  split_ifs
  · exact avoids_bind (beginArray_avoids hbad _ _ _) fun _ => encodeMembers_avoids hbad (hput _ _) _ _
  · exact avoids_of_walkFault hbad id
  · exact hput _ _ _ _

theorem puts_avoids (hbad : WalkFault bad) (f : Field) (array : Bool) (x : LuaValue) (e : Encoder) :
    Avoids (putBool f array x e) bad ∧ Avoids (putShort f array x e) bad ∧ Avoids (putInt f array x e) bad ∧
      Avoids (putFloat f array x e) bad ∧ Avoids (putDouble f array x e) bad ∧
      Avoids (putString f array x e) bad := by
  refine ⟨append_avoids hbad _ _, append_avoids hbad _ _, ?_, append_avoids hbad _ _, append_avoids hbad _ _, ?_⟩
  · unfold putInt
    split_ifs
    · exact avoids_of_walkFault hbad id
    · exact appendInt_avoids hbad _ _
  · unfold putString appendString
    split_ifs
    · exact avoids_of_walkFault hbad id
    · exact avoids_bind (append_avoids hbad _ _) fun _ => append_avoids hbad _ _

theorem encodeChildren_avoids {δ : Type} {D : Depth δ} {d : δ} {bad : Fault} :
    ∀ {cs : List Field}, (∀ c ∈ cs, ∀ v e, Avoids (encodeOne D c v d e) bad) →
      ∀ v e, Avoids (encodeChildren D cs v d e) bad
  | [], _, _, _ => avoids_ok _
  | c :: cs, h, v, e => avoids_bind (h c (List.mem_cons_self c cs) _ e) fun e =>
      encodeChildren_avoids (fun c' hc' => h c' (List.mem_cons_of_mem c hc')) v e

theorem encodeOne_avoids (f : Field) :
    ∀ v (d : Int) e, d + f.height ≤ MAX_DEPTH → Avoids (encodeOne counter f v d e) (.thrown (.tooDepth true)) := by
  induction f using Field.induction with
  | mk name array type childs ih =>
    intro v d e hd
    have hw : WalkFault (.thrown (.tooDepth true)) := trivial
    simp only [encodeOne]
    cases ht : EType.ofCode type with
    | none => exact avoids_of_walkFault hw id
    | some t =>
      cases t
      case pto =>
        have hf := EType.ofCode_eq_some.mp ht
        simp only [Field.height, hf, if_true] at hd
        have hch := encodeChildren_avoids fun c hc v e => ih c hc v (d + 1) e
          (by have := height_le_heightList hc; omega)
        unfold encodePto
        simp only [counter, MAX_DEPTH] at hd ⊢
        split_ifs with hdeep
        · simp only [decide_eq_true_eq] at hdeep; omega
        · exact avoids_of_walkFault hw id
        · exact avoids_bind (beginArray_avoids hw _ _ _) fun _ => encodeMembers_avoids hw hch _ _
        · exact hch _ _
      all_goals exact encodeScalar_avoids hw (fun f array x e => by simp only [puts_avoids hw]) _ _ _

theorem index_avoids (hbad : WalkFault bad) (v : LuaValue) (k : String) : Avoids (v.index k) bad := by
  unfold LuaValue.index
  split
  · exact avoids_ok _
  · exact avoids_ok _
  · exact avoids_of_walkFault hbad id

theorem encodeFields_avoids (record : LuaValue) :
    ∀ {fs : List Field} e, heightList fs < MAX_DEPTH →
      Avoids (encodeFields record fs e) (.thrown (.tooDepth true))
  | [], _, _ => avoids_ok _
  | f :: fs, e, h => by
    simp only [heightList, MAX_DEPTH] at h
    have hw : WalkFault (.thrown (.tooDepth true)) := trivial
    exact avoids_bind (index_avoids hw _ _) fun v =>
      avoids_bind (encodeOne_avoids f v 1 e (by simp only [MAX_DEPTH]; omega)) fun e =>
        encodeFields_avoids record e (by simp only [MAX_DEPTH]; omega)

end Encoder

namespace Decoder

theorem readFixed_avoids (hbad : WalkFault bad) (d : Decoder) (k : Nat) : Avoids (d.readFixed k) bad := by
  unfold readFixed
  refine avoids_bind (intResult_avoids hbad _) fun _ => ?_
  split_ifs
  · exact avoids_of_walkFault hbad id
  · exact avoids_bind (intResult_avoids hbad _) fun _ => avoids_ok _

theorem readBytes_avoids (hbad : WalkFault bad) (d : Decoder) (k : Nat) : Avoids (d.readBytes k) bad := by
  unfold readBytes
  refine avoids_bind (intResult_avoids hbad _) fun _ => ?_
  split_ifs
  · exact avoids_of_walkFault hbad id
  · exact avoids_bind (intResult_avoids hbad _) fun _ => avoids_ok _

theorem readVarint_avoids (hbad : WalkFault bad) (d : Decoder) : Avoids d.readVarint bad := by
  unfold readVarint
  refine avoids_bind (readFixed_avoids hbad _ _) fun ⟨tag, d⟩ => ?_
  dsimp only
  split
  · exact avoids_ok _
  · refine avoids_bind (readBytes_avoids hbad _ _) fun ⟨value, d⟩ => ?_
    split_ifs <;> first | exact avoids_ok _ | exact avoids_of_walkFault hbad id

theorem readBool_avoids (hbad : WalkFault bad) (d : Decoder) : Avoids d.readBool bad := by
  refine avoids_bind (readFixed_avoids hbad _ _) fun ⟨b, d⟩ => ?_
  dsimp only
  split_ifs
  · exact avoids_ok _
  · exact avoids_of_walkFault hbad id

theorem reads_avoids (hbad : WalkFault bad) (d : Decoder) :
    Avoids (readBool d) bad ∧ Avoids (readShort d) bad ∧ Avoids (readInt d) bad ∧ Avoids (readFloat d) bad ∧
      Avoids (readDouble d) bad ∧ Avoids (readStringValue d) bad :=
  ⟨readBool_avoids hbad d, avoids_map (readFixed_avoids hbad _ _),
    avoids_map (readVarint_avoids hbad _), avoids_map (readFixed_avoids hbad _ _),
    avoids_map (readFixed_avoids hbad _ _),
    avoids_map (avoids_bind (readFixed_avoids hbad _ _) fun _ => readBytes_avoids hbad _ _)⟩

theorem decodeMembers_avoids {read : Decoder → Except Fault (LuaValue × Decoder)}
    (hread : ∀ d, Avoids (read d) bad) : ∀ is t d, Avoids (decodeMembers read is t d) bad
  | [], _, _ => avoids_ok _
  | _ :: is, _, d => avoids_bind (hread d) fun _ => decodeMembers_avoids hread is _ _

theorem decodeValue_avoids (hbad : WalkFault bad) {read : Decoder → Except Fault (LuaValue × Decoder)}
    (hread : ∀ d, Avoids (read d) bad) (f : Field) (parent : LuaValue) (d : Decoder) :
    Avoids (decodeValue read f parent d) bad := by
  unfold decodeValue
  split_ifs
  · exact avoids_bind (readFixed_avoids hbad _ _) fun _ =>
      avoids_bind (decodeMembers_avoids hread _ _ _) fun _ => avoids_ok _
  · exact avoids_bind (hread d) fun _ => avoids_ok _

theorem decodeChildren_avoids {δ : Type} {D : Depth δ} {d : δ} {bad : Fault} :
    ∀ {cs : List Field}, (∀ c ∈ cs, ∀ r dec, Avoids (decodeOne D c d r dec) bad) →
      ∀ r dec, Avoids (decodeChildren D cs d r dec) bad
  | [], _, _, _ => avoids_ok _
  | c :: cs, h, r, dec => avoids_bind (h c (List.mem_cons_self c cs) r dec) fun _ =>
      decodeChildren_avoids (fun c' hc' => h c' (List.mem_cons_of_mem c hc')) _ _

theorem decodeOne_avoids (f : Field) :
    ∀ (d : Int) parent dec, d + f.height ≤ MAX_DEPTH →
      Avoids (decodeOne counter f d parent dec) (.thrown (.tooDepth false)) := by
  induction f using Field.induction with
  | mk name array type childs ih =>
    intro d parent dec hd
    have hw : WalkFault (.thrown (.tooDepth false)) := trivial
    simp only [decodeOne]
    cases ht : EType.ofCode type with
    | none => exact avoids_of_walkFault hw id
    | some t =>
      cases t
      case pto =>
        have hf := EType.ofCode_eq_some.mp ht
        simp only [Field.height, hf, if_true] at hd
        have hch := decodeChildren_avoids fun c hc r dec => ih c hc (d + 1) r dec
          (by have := height_le_heightList hc; omega)
        unfold decodePto
        simp only [counter, MAX_DEPTH] at hd ⊢
        split_ifs with hdeep
        · simp only [decide_eq_true_eq] at hdeep; omega
        · exact decodeValue_avoids hw (fun _ => hch _ _) _ _ _
      all_goals exact decodeValue_avoids hw (fun d => by simp only [reads_avoids hw]) _ _ _

theorem decodeFields_avoids {fs : List Field} (h : heightList fs < MAX_DEPTH) (parent : LuaValue)
    (dec : Decoder) : Avoids (decodeChildren counter fs 1 parent dec) (.thrown (.tooDepth false)) :=
  decodeChildren_avoids (fun c hc r dec => decodeOne_avoids c 1 r dec
    (by have := height_le_heightList hc; simp only [MAX_DEPTH] at *; omega)) parent dec

end Decoder

end Avoids

def chain : Nat → List Field
  | 0 => [⟨"x", false, EType.bool.code, []⟩]
  | n + 1 => [⟨"m", false, EType.pto.code, chain n⟩]

def nest : Nat → LuaValue
  | 0 => .table [] [("x", .boolean true)]
  | n + 1 => .table [] [("m", nest n)]

theorem type_nest (n : Nat) : (nest n).type = .table := by
  cases n <;> rfl

section Step

variable {δ : Type} (D : Depth δ) {f : Field} {d : δ}

namespace Encoder

variable {children : LuaValue → δ → Encoder → Except Fault Encoder}

theorem encodePto_tooDeep (h : D.tooDeep (D.enter d f) = true) (v : LuaValue) (e : Encoder) :
    encodePto D f children v d e = .error (.thrown (.tooDepth true)) := by
  simp [encodePto, h]

theorem encodePto_record (h : D.tooDeep (D.enter d f) = false) (harr : f.array = false) {v : LuaValue}
    (hv : v.type = .table) (e : Encoder) : encodePto D f children v d e = children v (D.enter d f) e := by
  simp [encodePto, h, harr, hv]

theorem encodeChildren_chain_succ (n : Nat) (d : Int) (e : Encoder) :
    encodeChildren counter (chain (n + 1)) (nest (n + 1)) d e =
      encodePto counter ⟨"m", false, EType.pto.code, chain n⟩ (encodeChildren counter (chain n)) (nest n) d e >>=
        .ok := by
  simp [chain, nest, encodeChildren, encodeOne, LuaValue.getfield, LuaValue.lookup]

theorem encodeChildren_chain (e : Encoder) (n : Nat) : ∀ {d : Int}, MAX_DEPTH < d + (n + 1) →
    encodeChildren counter (chain (n + 1)) (nest (n + 1)) d e = .error (.thrown (.tooDepth true)) := by
  induction n with
  | zero =>
    intro d h
    rw [encodeChildren_chain_succ, encodePto_tooDeep counter (by simp [counter]; omega)]; rfl
  | succ n ih =>
    intro d h
    rw [encodeChildren_chain_succ]
    by_cases hd : MAX_DEPTH < d + 1
    · rw [encodePto_tooDeep counter (by simp [counter]; omega)]; rfl
    · rw [encodePto_record counter (by simp [counter]; omega) rfl (type_nest _), ih (by simp only [counter]; omega)]; rfl

theorem encodeFields_chain {n : Nat} (hn : MAX_DEPTH ≤ n) :
    encodeFields (nest n) (chain n) init = .error (.thrown (.tooDepth true)) := by
  obtain ⟨k, rfl⟩ : ∃ k, n = k + 1 := ⟨n - 1, by simp only [MAX_DEPTH] at hn; omega⟩
  rw [show nest (k + 1) = .table [] [("m", nest k)] from rfl, encodeFields_table]
  exact encodeChildren_chain _ k (by simp only [MAX_DEPTH] at hn ⊢; omega)

end Encoder

namespace Decoder

variable {children : δ → LuaValue → Decoder → Except Fault (LuaValue × Decoder)}

theorem decodePto_tooDeep (h : D.tooDeep (D.enter d f) = true) (parent : LuaValue) (dec : Decoder) :
    decodePto D f children parent d dec = .error (.thrown (.tooDepth false)) := by
  simp [decodePto, h]

theorem decodePto_record (h : D.tooDeep (D.enter d f) = false) (harr : f.array = false) (parent : LuaValue)
    (dec : Decoder) : decodePto D f children parent d dec =
      children (D.enter d f) (.table [] []) dec >>= fun (x, dec) => .ok (parent.setfield f.name x, dec) := by
  simp [decodePto, decodeValue, h, harr]

theorem decodeChildren_chain_succ (n : Nat) (d : Int) (parent : LuaValue) (dec : Decoder) :
    decodeChildren counter (chain (n + 1)) d parent dec =
      decodePto counter ⟨"m", false, EType.pto.code, chain n⟩ (decodeChildren counter (chain n)) parent d dec >>=
        fun (r, dec) => .ok (r, dec) := by
  simp [chain, decodeChildren, decodeOne]

theorem decodeChildren_chain (n : Nat) : ∀ {d : Int}, MAX_DEPTH < d + (n + 1) → ∀ parent dec,
    decodeChildren counter (chain (n + 1)) d parent dec = .error (.thrown (.tooDepth false)) := by
  induction n with
  | zero =>
    intro d h parent dec
    rw [decodeChildren_chain_succ, decodePto_tooDeep counter (by simp [counter]; omega)]; rfl
  | succ n ih =>
    intro d h parent dec
    rw [decodeChildren_chain_succ]
    by_cases hd : MAX_DEPTH < d + 1
    · rw [decodePto_tooDeep counter (by simp [counter]; omega)]; rfl
    · rw [decodePto_record counter (by simp [counter]; omega) rfl, ih (by simp only [counter]; omega)]; rfl

end Decoder

end Step

theorem depth_bounds_path :
    (∀ f v (d : Int) path, d = 1 + path.length →
      Encoder.encodeOne counter f v d = Encoder.encodeOne pathDepth f v path) ∧
    (∀ f (d : Int) path, d = 1 + path.length →
      Decoder.decodeOne counter f d = Decoder.decodeOne pathDepth f path) ∧
    (∀ (P : Protocol) v e parent dec, heightList P.fields < MAX_DEPTH →
      Encoder.encodeFields v P.fields e ≠ .error (.thrown (.tooDepth true)) ∧
        Decoder.decodeChildren counter P.fields 1 parent dec ≠ .error (.thrown (.tooDepth false))) ∧
    (∀ n : Nat, MAX_DEPTH ≤ n →
      Encoder.encodeFields (nest n) (chain n) Encoder.init = .error (.thrown (.tooDepth true)) ∧
        ∀ parent dec, Decoder.decodeChildren counter (chain n) 1 parent dec = .error (.thrown (.tooDepth false))) := by
  refine ⟨fun f v d path h => Encoder.encodeOne_sim counter_sim_pathDepth f v h,
    fun f d path h => funext (Decoder.decodeOne_sim counter_sim_pathDepth f h),
    fun P v e parent dec h => ⟨Encoder.encodeFields_avoids v e h, Decoder.decodeFields_avoids h parent dec⟩,
    fun n hn => ⟨Encoder.encodeFields_chain hn, ?_⟩⟩
  obtain ⟨k, rfl⟩ : ∃ k, n = k + 1 := ⟨n - 1, by simp only [MAX_DEPTH] at hn; omega⟩
  exact Decoder.decodeChildren_chain k (by simp only [MAX_DEPTH] at hn ⊢; omega)

end PtoCodec
