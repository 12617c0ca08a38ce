import PtoCodec.StackWalk
import PtoCodec.DepthLimit

namespace PtoCodec

theorem LuaValue.elements_eq_map (v : LuaValue) (size : Nat) :
    v.elements size = (List.range' 1 size).map v.rawgeti := by
  simp only [LuaValue.elements, List.range'_eq_map_range, List.map_map]
  congr 1
  funext i
  simp only [Function.comp, Nat.add_comm]

theorem LuaValue.eq_table_of_type {v : LuaValue} (h : v.type = .table) : ∃ arr hash, v = .table arr hash := by
  cases v <;> first | exact ⟨_, _, rfl⟩ | cases h

section EncoderOnStack

variable {L : LuaState}

theorem encodeMembers_onStack {kind : LuaType} {expect name : String}
    {put : LuaState → Encoder → Except Fault (LuaState × Encoder)}
    {put' : LuaValue → Encoder → Except Fault Encoder} (hroom : L.top < L.limit)
    (hput : ∀ x e, x.type = kind → put (L.pushed x) e = (put' x e).map (L.pushed x, ·)) :
    ∀ (is : List Nat) e, Stack.Encoder.encodeMembers kind expect name put L.top is L e =
      (Encoder.encodeMembers kind expect name put' (is.map (L.get L.top).rawgeti) e).map (L, ·)
  | [], _ => rfl
  | i :: is, e => by
    simp only [Stack.Encoder.encodeMembers, LuaState.rawgeti, LuaState.push_of_lt hroom, ok_bind,
      LuaState.get_pushed_top, List.map_cons, Encoder.encodeMembers]
    split_ifs with hk
    · rfl
    · rw [hput _ _ (not_not.mp hk)]
      cases put' ((L.get L.top).rawgeti i) e with
      | error => rfl
      | ok e' =>
        simp only [Except.map, ok_bind, LuaState.pop_pushed]
        exact encodeMembers_onStack hroom hput is e'

theorem encodeScalar_onStack {kind : LuaType} {expect : String}
    {put : Field → Bool → LuaValue → Encoder → Except Fault Encoder} (f : Field) (hroom : L.top < L.limit)
    (e : Encoder) :
    Stack.Encoder.encodeScalar kind expect put f L.top L e =
      (Encoder.encodeScalar kind expect put f (L.get L.top) e).map (L, ·) := by
  simp only [Stack.Encoder.encodeScalar, Encoder.encodeScalar]
  split_ifs
  · cases Encoder.beginArray f (L.get L.top) e with
    | error => rfl
    | ok p =>
      rw [ok_bind, ok_bind, encodeMembers_onStack hroom (fun x e _ => by rw [LuaState.get_pushed_top]),
        ← LuaValue.elements_eq_map]
  · rfl
  · rfl

theorem encodeChildren_cons_onStack {c : Field} {cs : List Field} {parent : Int} {index : Nat}
    {depth : Int} (hroom : L.top < L.limit)
    (hc : ∀ x e, Stack.Encoder.encodeOne c index depth (L.pushed x) e =
      (Encoder.encodeOne counter c x depth e).map (L.pushed x, ·)) (e : Encoder) :
    Stack.Encoder.encodeChildren (c :: cs) parent index depth L e =
      ((L.get parent).index c.name >>= fun x => Encoder.encodeOne counter c x depth e) >>= fun e =>
        Stack.Encoder.encodeChildren cs parent index depth L e := by
  simp only [Stack.Encoder.encodeChildren, LuaState.getfield]
  cases (L.get parent).index c.name with
  | error => rfl
  | ok x =>
    simp only [ok_bind, LuaState.push_of_lt hroom, hc]
    cases Encoder.encodeOne counter c x depth e with
    | error => rfl
    | ok e' => simp only [Except.map, ok_bind, LuaState.pop_pushed]

theorem encodeChildren_onStack {cs : List Field} {parent : Int} {index : Nat} {depth : Int}
    {arr : List LuaValue} {hash : List (String × LuaValue)} (hv : L.get parent = .table arr hash)
    (hroom : L.top < L.limit)
    (hcs : ∀ c ∈ cs, ∀ x e, Stack.Encoder.encodeOne c index depth (L.pushed x) e =
      (Encoder.encodeOne counter c x depth e).map (L.pushed x, ·)) :
    ∀ e, Stack.Encoder.encodeChildren cs parent index depth L e =
      (Encoder.encodeChildren counter cs (.table arr hash) depth e).map (L, ·) := by
  induction cs with
  | nil => intro e; rfl
  | cons c cs ih =>
    intro e
    rw [encodeChildren_cons_onStack hroom (hcs c (List.mem_cons_self c cs)), hv, LuaValue.index_table,
      ok_bind, Encoder.encodeChildren]
    cases Encoder.encodeOne counter c _ depth e with
    | error => rfl
    | ok e' => exact ih (fun c' hc' => hcs c' (List.mem_cons_of_mem c hc')) e'

theorem encodeFields_onStack {fs : List Field} {parent : Int} {index : Nat} {record : LuaValue}
    (hv : L.get parent = record) (hroom : L.top < L.limit)
    (hfs : ∀ f ∈ fs, ∀ x e, Stack.Encoder.encodeOne f index 1 (L.pushed x) e =
      (Encoder.encodeOne counter f x 1 e).map (L.pushed x, ·)) :
    ∀ e, Stack.Encoder.encodeChildren fs parent index 1 L e =
      (Encoder.encodeFields record fs e).map (L, ·) := by
  induction fs with
  | nil => intro e; rfl
  | cons f fs ih =>
    intro e
    rw [encodeChildren_cons_onStack hroom (hfs f (List.mem_cons_self f fs)), hv, Encoder.encodeFields]
    cases record.index f.name with
    | error => rfl
    | ok x =>
      simp only [ok_bind]
      cases Encoder.encodeOne counter f x 1 e with
      | error => rfl
      | ok e' => exact ih (fun f' hf' => hfs f' (List.mem_cons_of_mem f hf')) e'

theorem encodeOne_onStack (f : Field) :
    ∀ (L : LuaState) (depth : Int) e, L.top + 2 * (MAX_DEPTH - depth).toNat + 1 ≤ L.limit →
      Stack.Encoder.encodeOne f L.top depth L e =
        (Encoder.encodeOne counter f (L.get L.top) depth e).map (L, ·) := by
  induction f using Field.induction with
  | mk name array type childs ih =>
    intro L depth e hroom
    simp only [Stack.Encoder.encodeOne, Encoder.encodeOne]
    cases ht : EType.ofCode type with
    | none => rfl
    | some t =>
      cases t
      case pto =>
        have hch : ∀ (L' : LuaState) (index : Nat), index = L'.top + 1 →
            L'.top + 2 * (MAX_DEPTH - (depth + 1)).toNat + 2 ≤ L'.limit → ∀ c ∈ childs, ∀ x e,
              Stack.Encoder.encodeOne c index (depth + 1) (L'.pushed x) e =
                (Encoder.encodeOne counter c x (depth + 1) e).map (L'.pushed x, ·) := by
          rintro L' _ rfl h c hc x e
          have := ih c hc (L'.pushed x) (depth + 1) e
            (by simp only [LuaState.top_pushed, LuaState.limit_pushed]; omega)
          rwa [LuaState.top_pushed, LuaState.get_pushed_succ] at this
        simp only [Stack.Encoder.encodePto, Encoder.encodePto, counter, decide_eq_true_eq]
        split_ifs with hdeep htype harr
        · rfl
        · rfl
        · cases Encoder.beginArray _ (L.get L.top) e with
          | error => rfl
          | ok p =>
            rw [ok_bind, ok_bind, Stack.Encoder.encodeRecords, Encoder.encodeRecords, LuaValue.elements_eq_map]
            refine encodeMembers_onStack (by omega) (fun x e hx => ?_) _ _
            obtain ⟨arr, hash, rfl⟩ := LuaValue.eq_table_of_type hx
            have hroom' : (L.pushed (.table arr hash)).top + 2 * (MAX_DEPTH - (depth + 1)).toNat + 2 ≤
                (L.pushed (.table arr hash)).limit := by
              simp only [LuaState.top_pushed, LuaState.limit_pushed]; omega
            exact encodeChildren_onStack (LuaState.get_pushed_top L _) (by omega)
              (hch _ (L.top + 2) (by rw [LuaState.top_pushed]) hroom') e
        · obtain ⟨arr, hash, hv⟩ := LuaValue.eq_table_of_type (not_not.mp htype)
          rw [hv]
          exact encodeChildren_onStack hv (by omega) (hch _ _ rfl (by omega)) e
      all_goals exact encodeScalar_onStack _ (by omega) e

end EncoderOnStack

section DecoderOnStack

theorem pushRead_onStack {read : Decoder → Except Fault (LuaValue × Decoder)} {L : LuaState}
    (hroom : L.top + 1 ≤ L.limit) (slot : Nat) (d : Decoder) :
    Stack.Decoder.pushRead read slot L d = (read d).map fun (x, d) => (L.pushed x, d) := by
  unfold Stack.Decoder.pushRead
  cases read d with
  | error => rfl
  | ok p => simp only [ok_bind, LuaState.push_of_lt hroom]; rfl

theorem decodeMembers_onStack {push : LuaState → Decoder → Except Fault (LuaState × Decoder)}
    {read : Decoder → Except Fault (LuaValue × Decoder)} {L : LuaState}
    (hpush : ∀ t d, push (L.pushed t) d = (read d).map fun (x, d) => ((L.pushed t).pushed x, d)) :
    ∀ (is : List Nat) t d, Stack.Decoder.decodeMembers push is (L.pushed t) d =
      (Decoder.decodeMembers read is t d).map fun (t, d) => (L.pushed t, d)
  | [], _, _ => rfl
  | i :: is, t, d => by
    rw [Stack.Decoder.decodeMembers, hpush, Decoder.decodeMembers]
    cases read d with
    | error => rfl
    | ok p =>
      simp only [Except.map, ok_bind, LuaState.seti_pushed]
      exact decodeMembers_onStack hpush is _ _

theorem decodeValue_onStack {push : Nat → LuaState → Decoder → Except Fault (LuaState × Decoder)}
    {read : Decoder → Except Fault (LuaValue × Decoder)} {L : LuaState} (f : Field) (room : Nat)
    (hroom : L.top + 1 + room ≤ L.limit)
    (hpush : ∀ (L' : LuaState) slot d, slot = L'.top + 1 → L'.top + room ≤ L'.limit →
      push slot L' d = (read d).map fun (x, d) => (L'.pushed x, d)) (d : Decoder) :
    Stack.Decoder.decodeValue push f L.top L d =
      (Decoder.decodeValue read f (L.get L.top) d).map fun (p, d) => (L.set L.top p, d) := by
  unfold Stack.Decoder.decodeValue Decoder.decodeValue
  split_ifs
  · cases d.readFixed 2 with
    | error => rfl
    | ok p =>
      obtain ⟨size, d⟩ := p
      have hmembers := @decodeMembers_onStack (push (L.top + 2)) read L fun t d =>
        hpush _ _ d (by rw [LuaState.top_pushed])
          (by simp only [LuaState.top_pushed, LuaState.limit_pushed]; omega)
      simp only [ok_bind, LuaState.createtable, LuaState.push_of_lt (show L.top < L.limit by omega), hmembers]
      cases Decoder.decodeMembers read _ _ _ with
      | error => rfl
      | ok q => simp only [Except.map, ok_bind, LuaState.setfield_pushed]
  · rw [hpush L _ d rfl (by omega)]
    cases read d with
    | error => rfl
    | ok p => simp only [Except.map, ok_bind, LuaState.setfield_pushed]

theorem decodeScalar_onStack {read : Decoder → Except Fault (LuaValue × Decoder)} {L : LuaState} (f : Field)
    (hroom : L.top + 2 ≤ L.limit) (d : Decoder) :
    Stack.Decoder.decodeValue (Stack.Decoder.pushRead read) f L.top L d =
      (Decoder.decodeValue read f (L.get L.top) d).map fun (p, d) => (L.set L.top p, d) :=
  decodeValue_onStack f 1 hroom (fun L' slot d _ h => @pushRead_onStack read L' h slot d) d

theorem decodeChildren_onStack {cs : List Field} {depth : Int} (room : Nat)
    (hcs : ∀ c ∈ cs, ∀ (L : LuaState) d, 0 < L.top → L.top + room ≤ L.limit →
      Stack.Decoder.decodeOne c L.top depth L d =
        (Decoder.decodeOne counter c depth (L.get L.top) d).map fun (p, d) => (L.set L.top p, d)) :
    ∀ (L : LuaState) d, 0 < L.top → L.top + room ≤ L.limit →
      Stack.Decoder.decodeChildren cs L.top depth L d =
        (Decoder.decodeChildren counter cs depth (L.get L.top) d).map fun (p, d) => (L.set L.top p, d) := by
  induction cs with
  | nil => intro L d h0 _; simp only [Stack.Decoder.decodeChildren, Decoder.decodeChildren, Except.map,
      LuaState.set_get_self L h0 le_rfl]
  | cons c cs ih =>
    intro L d h0 hroom
    rw [Stack.Decoder.decodeChildren, Decoder.decodeChildren, hcs c (List.mem_cons_self c cs) L d h0 hroom]
    cases Decoder.decodeOne counter c depth (L.get L.top) d with
    | error => rfl
    | ok p =>
      have := ih (fun c' hc' => hcs c' (List.mem_cons_of_mem c hc')) (L.set L.top p.1) p.2
        (by rwa [LuaState.top_set]) (by simp only [LuaState.top_set, LuaState.limit_set]; omega)
      simp only [LuaState.top_set, LuaState.get_set_self _ _ h0 le_rfl, LuaState.set_set] at this
      simp only [Except.map, ok_bind, this]

theorem decodeOne_onStack (f : Field) :
    ∀ (L : LuaState) (depth : Int) d, 0 < L.top → L.top + 2 * (MAX_DEPTH - depth).toNat + 2 ≤ L.limit →
      Stack.Decoder.decodeOne f L.top depth L d =
        (Decoder.decodeOne counter f depth (L.get L.top) d).map fun (p, d) => (L.set L.top p, d) := by
  induction f using Field.induction with
  | mk name array type childs ih =>
    intro L depth d h0 hroom
    rw [Stack.Decoder.decodeOne, Decoder.decodeOne]
    cases ht : EType.ofCode type with
    | none => rfl
    | some t =>
      cases t
      case pto =>
        simp only [Stack.Decoder.decodePto, Decoder.decodePto, counter, decide_eq_true_eq]
        split_ifs with hdeep
        · rfl
        · have hpush : ∀ (L' : LuaState) slot d, slot = L'.top + 1 →
              L'.top + (2 * (MAX_DEPTH - (depth + 1)).toNat + 3) ≤ L'.limit →
                (L'.createtable >>= fun L => Stack.Decoder.decodeChildren childs slot (depth + 1) L d) =
                  (Decoder.decodeChildren counter childs (depth + 1) (.table [] []) d).map
                    fun (x, d) => (L'.pushed x, d) := by
            rintro L' _ d rfl h
            have := decodeChildren_onStack (2 * (MAX_DEPTH - (depth + 1)).toNat + 2)
              (fun c hc L d h0 h => ih c hc L (depth + 1) d h0 (by omega)) (L'.pushed (.table [] [])) d
              (by simp only [LuaState.top_pushed]; omega)
              (by simp only [LuaState.top_pushed, LuaState.limit_pushed]; omega)
            rw [LuaState.top_pushed, LuaState.get_pushed_succ] at this
            rw [LuaState.createtable, LuaState.push_of_lt (by omega), ok_bind, this]
            simp only [LuaState.set_pushed_succ]
          exact decodeValue_onStack _ _ (by omega) hpush d
      all_goals exact decodeScalar_onStack _ (by omega) d

end DecoderOnStack

section Stores

@[simp] theorem LuaValue.type_setfield (t : LuaValue) (k : String) (v : LuaValue) :
    (t.setfield k v).type = t.type := by
  cases t <;> rfl

@[simp] theorem LuaValue.type_rawseti (t : LuaValue) (i : Nat) (v : LuaValue) :
    (t.rawseti i v).type = t.type := by
  cases t <;> simp only [LuaValue.rawseti]
  split <;> rfl

theorem LuaValue.ne_nil_of_type {x : LuaValue} (h : x.type = .table) : x ≠ .nil := by
  rintro rfl
  cases h

def Present (read : Decoder → Except Fault (LuaValue × Decoder)) : Prop :=
  ∀ d x d', read d = .ok (x, d') → x ≠ .nil

theorem present_map {α : Type} {read : Decoder → Except Fault (α × Decoder)}
    {g : α × Decoder → LuaValue × Decoder} (hg : ∀ p, (g p).1 ≠ .nil) :
    Present fun d => (read d).map g := fun _ _ _ h => by
  obtain ⟨p, _, hp⟩ := map_eq_ok.mp h
  simpa only [hp] using hg p

theorem reads_present :
    Present Decoder.readBool ∧ Present Decoder.readShort ∧ Present Decoder.readInt ∧
      Present Decoder.readFloat ∧ Present Decoder.readDouble ∧ Present Decoder.readStringValue :=
  ⟨fun _ _ _ h => by
    obtain ⟨⟨b, d⟩, -, h⟩ := bind_eq_ok.mp h
    dsimp only at h
    split_ifs at h
    cases h
    nofun, present_map fun _ => nofun, present_map fun _ => nofun,
    present_map fun _ => nofun, present_map fun _ => nofun, present_map fun _ => nofun⟩

theorem decodeMembers_type {read : Decoder → Except Fault (LuaValue × Decoder)} :
    ∀ (is : List Nat) {t d r d'}, Decoder.decodeMembers read is t d = .ok (r, d') → r.type = t.type
  | [], _, _, _, _, h => by cases h; rfl
  | _ :: is, _, _, _, _, h => by
    obtain ⟨⟨x, d1⟩, _, h⟩ := bind_eq_ok.mp h
    rw [decodeMembers_type is h, LuaValue.type_rawseti]

theorem decodeValue_stores {read : Decoder → Except Fault (LuaValue × Decoder)} (hr : Present read)
    {f : Field} {parent r : LuaValue} {d d' : Decoder} (h : Decoder.decodeValue read f parent d = .ok (r, d')) :
    ∃ x, x ≠ .nil ∧ r = parent.setfield f.name x := by
  unfold Decoder.decodeValue at h
  split at h
  · obtain ⟨⟨size, d1⟩, _, h⟩ := bind_eq_ok.mp h
    obtain ⟨⟨t, d2⟩, ht, h⟩ := bind_eq_ok.mp h
    cases h
    exact ⟨t, LuaValue.ne_nil_of_type (decodeMembers_type _ ht), rfl⟩
  · obtain ⟨⟨x, d1⟩, hx, h⟩ := bind_eq_ok.mp h
    cases h
    exact ⟨x, hr _ _ _ hx, rfl⟩

variable {δ : Type} (D : Depth δ)

theorem decodeChildren_type {depth : δ} :
    ∀ {cs : List Field},
      (∀ c ∈ cs, ∀ {parent d r d'}, Decoder.decodeOne D c depth parent d = .ok (r, d') →
        r.type = parent.type) →
      ∀ {parent d r d'}, Decoder.decodeChildren D cs depth parent d = .ok (r, d') → r.type = parent.type
  | [], _, _, _, _, _, h => by cases h; rfl
  | c :: cs, hc, _, _, _, _, h => by
    obtain ⟨⟨r1, d1⟩, h1, h⟩ := bind_eq_ok.mp h
    rw [decodeChildren_type (fun c' hc' => hc c' (List.mem_cons_of_mem c hc')) h,
      hc c (List.mem_cons_self c cs) h1]

theorem decodeOne_stores (f : Field) :
    ∀ {depth : δ} {parent d r d'}, Decoder.decodeOne D f depth parent d = .ok (r, d') →
      ∃ x, x ≠ .nil ∧ r = parent.setfield f.name x := by
  induction f using Field.induction with
  | mk name array type childs ih =>
    intro depth parent d r d' h
    simp only [Decoder.decodeOne] at h
    cases ht : EType.ofCode type with
    | none => simp only [ht] at h; cases h
    | some t =>
      simp only [ht] at h
      cases t
      case pto =>
        simp only [Decoder.decodePto] at h
        split at h
        · cases h
        refine decodeValue_stores (fun _ x _ hx => LuaValue.ne_nil_of_type ?_) h
        exact decodeChildren_type D (fun c hc _ _ _ _ h' => by
          obtain ⟨y, _, rfl⟩ := ih c hc h'
          exact LuaValue.type_setfield _ _ _) hx
      all_goals exact decodeValue_stores (by simp only [reads_present]) h

end Stores

section NoStack

variable {δ : Type} (D : Depth δ)

theorem decodeOne_avoids_stackOverflow (f : Field) :
    ∀ (d : δ) parent dec, Avoids (Decoder.decodeOne D f d parent dec) (.undefined .stackOverflow) := by
  have hw : WalkFault (.undefined .stackOverflow) := trivial
  induction f using Field.induction with
  | mk name array type childs ih =>
    intro d parent dec
    simp only [Decoder.decodeOne]
    cases EType.ofCode type with
    | none => exact avoids_of_walkFault hw id
    | some t =>
      cases t
      case pto =>
        have hch := Decoder.decodeChildren_avoids fun c hc r dec =>
          ih c hc (D.enter d ⟨name, array, type, childs⟩) r dec
        simp only [Decoder.decodePto]
        split_ifs
        · exact avoids_error nofun
        · exact Decoder.decodeValue_avoids hw (fun _ => hch _ _) _ _ _
      all_goals exact Decoder.decodeValue_avoids hw (fun d => by simp only [Decoder.reads_avoids hw]) _ _ _

theorem luaL_error_ne_stackOverflow (fmt : String) : luaL_error fmt ≠ .undefined .stackOverflow := by
  obtain ⟨m, hm⟩ | hm := luaL_error_cases fmt <;> rw [hm] <;> nofun

theorem decodePto_avoids_stackOverflow (mem : Nat → UInt8) (ctx : Context) (id : BitVec 64)
    (arg3 arg4 : LuaValue) :
    Avoids (decodePto mem ctx id arg3 arg4) (.undefined .stackOverflow) := by
  unfold decodePto
  dsimp only
  cases ctx.getPto (toUInt16 id.toInt) with
  | none => exact avoids_error nofun
  | some pto =>
    dsimp only
    refine avoids_bind ?_ fun ⟨ptr, size⟩ => ?_
    · unfold decodeInput
      split <;> first | exact avoids_ok _ | exact avoids_error nofun
    · have h := Decoder.decodeChildren_avoids
        (fun c (_ : c ∈ pto.fields) r dec => decodeOne_avoids_stackOverflow counter c 1 r dec)
        (.table [] []) ⟨ptr, 0, toInt size⟩
      cases hr : Decoder.decodeChildren counter pto.fields 1 (.table [] []) ⟨ptr, 0, toInt size⟩ with
      | ok p =>
        dsimp only
        split_ifs
        · exact avoids_error nofun
        · exact avoids_ok _
      | error err =>
        rw [hr] at h
        cases err with
        | undefined => exact avoids_error (avoids_error_iff.mp h)
        | thrown => exact avoids_error (luaL_error_ne_stackOverflow _)
        | luaError => exact avoids_error nofun

end NoStack

section Balanced

def Balanced {α : Type} (L : LuaState) (r : Except Fault (LuaState × α)) : Prop :=
  Avoids r (.undefined .stackOverflow) ∧ ∀ L' a, r = .ok (L', a) → L' = L

variable {α β : Type} {L : LuaState}

theorem Balanced.error {err : Fault} (h : err ≠ .undefined .stackOverflow) :
    Balanced L (.error err : Except Fault (LuaState × α)) :=
  ⟨avoids_error h, fun _ _ h => by cases h⟩

theorem Balanced.map {r : Except Fault α} (hr : Avoids r (.undefined .stackOverflow)) :
    Balanced L (r.map (L, ·)) :=
  ⟨avoids_map hr, fun _ _ h => by obtain ⟨_, _, h⟩ := map_eq_ok.mp h; cases h; rfl⟩

theorem Balanced.bind {L₁ : LuaState} {r : Except Fault (LuaState × α)}
    {k : LuaState × α → Except Fault (LuaState × β)} (hr : Balanced L₁ r)
    (hk : ∀ a, Balanced L (k (L₁, a))) : Balanced L (r >>= k) := by
  rcases r with err | ⟨L', a⟩
  · exact Balanced.error (avoids_error_iff.mp hr.1)
  · rw [hr.2 L' a rfl]
    exact hk a

theorem Balanced.bind_avoids {r : Except Fault α} {k : α → Except Fault (LuaState × β)}
    (hr : Avoids r (.undefined .stackOverflow)) (hk : ∀ a, Balanced L (k a)) : Balanced L (r >>= k) := by
  rcases r with err | a
  · exact Balanced.error (avoids_error_iff.mp hr)
  · exact hk a

theorem encodeMembers_balanced {kind : LuaType} {expect name : String}
    {put : LuaState → Encoder → Except Fault (LuaState × Encoder)} {index : Nat} (hroom : L.top < L.limit)
    (hput : ∀ x e, Balanced (L.pushed x) (put (L.pushed x) e)) :
    ∀ (is : List Nat) e, Balanced L (Stack.Encoder.encodeMembers kind expect name put index is L e)
  | [], _ => ⟨avoids_ok _, fun _ _ h => by cases h; rfl⟩
  | i :: is, e => by
    simp only [Stack.Encoder.encodeMembers, LuaState.rawgeti, LuaState.push_of_lt hroom, ok_bind,
      LuaState.get_pushed_top]
    split_ifs
    · exact Balanced.error nofun
    · refine Balanced.bind (hput _ e) fun e' => ?_
      simp only [LuaState.pop_pushed]
      exact encodeMembers_balanced hroom hput is e'

theorem encodeScalar_balanced {kind : LuaType} {expect : String}
    {put : Field → Bool → LuaValue → Encoder → Except Fault Encoder}
    (hput : ∀ f array x e, Avoids (put f array x e) (.undefined .stackOverflow)) (f : Field) (index : Nat)
    (hroom : L.top < L.limit) (e : Encoder) :
    Balanced L (Stack.Encoder.encodeScalar kind expect put f index L e) := by
  have hw : WalkFault (.undefined .stackOverflow) := trivial
  simp only [Stack.Encoder.encodeScalar]
  split_ifs
  · exact Balanced.bind_avoids (Encoder.beginArray_avoids hw _ _ _) fun _ =>
      encodeMembers_balanced hroom (fun _ _ => Balanced.map (hput _ _ _ _)) _ _
  · exact Balanced.error nofun
  · exact Balanced.map (hput _ _ _ _)

theorem encodeChildren_balanced {cs : List Field} {parent : Int} {index : Nat} {depth : Int}
    (hroom : L.top < L.limit)
    (hcs : ∀ c ∈ cs, ∀ x e, Balanced (L.pushed x) (Stack.Encoder.encodeOne c index depth (L.pushed x) e)) :
    ∀ e, Balanced L (Stack.Encoder.encodeChildren cs parent index depth L e) := by
  induction cs with
  | nil => exact fun _ => ⟨avoids_ok _, fun _ _ h => by cases h; rfl⟩
  | cons c cs ih =>
    intro e
    simp only [Stack.Encoder.encodeChildren, LuaState.getfield]
    have hindex :=
      Encoder.index_avoids (show WalkFault (.undefined .stackOverflow) from trivial) (L.get parent) c.name
    cases hx : (L.get parent).index c.name with
    | error err => exact Balanced.error (avoids_error_iff.mp (hx ▸ hindex))
    | ok x =>
      simp only [ok_bind, LuaState.push_of_lt hroom]
      refine Balanced.bind (hcs c (List.mem_cons_self c cs) x e) fun e' => ?_
      simp only [LuaState.pop_pushed]
      exact ih (fun c' hc' => hcs c' (List.mem_cons_of_mem c hc')) e'

theorem encodeOne_balanced (f : Field) :
    ∀ (index : Nat) (L : LuaState) (depth : Int) e, L.top + 2 * (MAX_DEPTH - depth).toNat + 1 ≤ L.limit →
      Balanced L (Stack.Encoder.encodeOne f index depth L e) := by
  have hw : WalkFault (.undefined .stackOverflow) := trivial
  induction f using Field.induction with
  | mk name array type childs ih =>
    intro index L depth e hroom
    simp only [Stack.Encoder.encodeOne]
    cases EType.ofCode type with
    | none => exact Balanced.error nofun
    | some t =>
      cases t
      case pto =>
        have hch : ∀ (L' : LuaState) (index' : Nat) (parent : Int),
            L'.top + 2 * (MAX_DEPTH - (depth + 1)).toNat + 2 ≤ L'.limit →
              ∀ e, Balanced L' (Stack.Encoder.encodeChildren childs parent index' (depth + 1) L' e) :=
          fun L' _ _ h => encodeChildren_balanced (by omega) fun c hc x e => ih c hc _ _ _ e
            (by simp only [LuaState.top_pushed, LuaState.limit_pushed]; omega)
        simp only [Stack.Encoder.encodePto]
        split_ifs
        · exact Balanced.error nofun
        · exact Balanced.error nofun
        · exact Balanced.bind_avoids (Encoder.beginArray_avoids hw _ _ _) fun _ =>
            encodeMembers_balanced (by omega)
              (fun x e => hch _ _ _ (by simp only [LuaState.top_pushed, LuaState.limit_pushed]; omega) e) _ _
        · exact hch _ _ _ (by omega) e
      all_goals
        exact encodeScalar_balanced (fun f array x e => by simp only [Encoder.puts_avoids hw]) _ _ (by omega) e

end Balanced

section Entries

theorem checkstack_room (L : LuaState) : L.top + 264 ≤ (L.checkstack (MAX_DEPTH * 2 + 8).toNat).limit := by
  simp only [LuaState.limit_checkstack, MAX_DEPTH]
  omega

theorem encodePto_onStack (ctx : Context) (id : BitVec 64) {L : LuaState} (h3 : L.top = 3) :
    Stack.encodePto ctx id L =
      (encodePto ctx id (L.get 3)).map fun s => (L.checkstack (MAX_DEPTH * 2 + 8).toNat).pushed (.string s) := by
  have hroom := checkstack_room L
  have hmax : MAX_DEPTH = 128 := rfl
  have hfs : ∀ (fs : List Field), ∀ f ∈ fs, ∀ x e,
      Stack.Encoder.encodeOne f 4 1 ((L.checkstack (MAX_DEPTH * 2 + 8).toNat).pushed x) e =
        (Encoder.encodeOne counter f x 1 e).map ((L.checkstack (MAX_DEPTH * 2 + 8).toNat).pushed x, ·) :=
    fun _ f _ x e => by
    have := encodeOne_onStack f ((L.checkstack (MAX_DEPTH * 2 + 8).toNat).pushed x) 1 e
      (by simp only [LuaState.top_pushed, LuaState.limit_pushed, LuaState.top_checkstack]; omega)
    rwa [LuaState.top_pushed, LuaState.get_pushed_succ, LuaState.top_checkstack, h3] at this
  unfold Stack.encodePto encodePto
  dsimp only
  cases ctx.getPto (toUInt16 id.toInt) with
  | none => rfl
  | some pto =>
    dsimp only
    rw [encodeFields_onStack (LuaState.get_checkstack L _ 3) (by simp only [LuaState.top_checkstack]; omega)
      (hfs pto.fields)]
    cases Encoder.encodeFields (L.get 3) pto.fields Encoder.init with
    | ok e => exact LuaState.push_of_lt (by simp only [LuaState.top_checkstack]; omega) _
    | error err => cases err <;> rfl

theorem Stack.encodePto_avoids_stackOverflow (ctx : Context) (id : BitVec 64) (L : LuaState) :
    Avoids (Stack.encodePto ctx id L) (.undefined .stackOverflow) := by
  have hroom := checkstack_room L
  have hmax : MAX_DEPTH = 128 := rfl
  unfold Stack.encodePto
  dsimp only
  cases ctx.getPto (toUInt16 id.toInt) with
  | none => exact avoids_error nofun
  | some pto =>
    dsimp only
    have hb : Balanced (L.checkstack (MAX_DEPTH * 2 + 8).toNat)
        (Stack.Encoder.encodeChildren pto.fields 3 4 1 (L.checkstack (MAX_DEPTH * 2 + 8).toNat) Encoder.init) :=
      encodeChildren_balanced (by simp only [LuaState.top_checkstack]; omega) (fun c _ x e =>
        encodeOne_balanced c 4 _ 1 e
          (by simp only [LuaState.top_pushed, LuaState.limit_pushed, LuaState.top_checkstack]; omega)) _
    cases hr :
        Stack.Encoder.encodeChildren pto.fields 3 4 1 (L.checkstack (MAX_DEPTH * 2 + 8).toNat) Encoder.init with
    | ok p =>
      obtain ⟨L', e⟩ := p
      rw [hb.2 L' e hr]
      dsimp only
      rw [LuaState.push_of_lt (by simp only [LuaState.top_checkstack]; omega)]
      exact avoids_ok _
    | error err =>
      rw [hr] at hb
      cases err with
      | thrown => exact avoids_error (luaL_error_ne_stackOverflow _)
      | _ => exact avoids_error (avoids_error_iff.mp hb.1)

theorem decodePto_onStack (mem : Nat → UInt8) (ctx : Context) (id : BitVec 64) (L : LuaState) :
    Stack.decodePto mem ctx id L =
      (decodePto mem ctx id (L.get 3) (L.get 4)).map (L.checkstack (MAX_DEPTH * 2 + 8).toNat).pushed := by
  have hroom := checkstack_room L
  have hmax : MAX_DEPTH = 128 := rfl
  unfold Stack.decodePto decodePto
  dsimp only
  cases ctx.getPto (toUInt16 id.toInt) with
  | none => rfl
  | some pto =>
    dsimp only
    cases decodeInput mem pto (L.get 3) (L.get 4) with
    | error => rfl
    | ok p =>
      obtain ⟨ptr, size⟩ := p
      have := @decodeChildren_onStack pto.fields 1 (2 * (MAX_DEPTH - 1).toNat + 2)
        (fun c _ L d => decodeOne_onStack c L 1 d)
        ((L.checkstack (MAX_DEPTH * 2 + 8).toNat).pushed (.table [] [])) ⟨ptr, 0, toInt size⟩
        (by simp only [LuaState.top_pushed]; omega)
        (by simp only [LuaState.top_pushed, LuaState.limit_pushed, LuaState.top_checkstack]; omega)
      simp only [LuaState.top_pushed, LuaState.get_pushed_succ] at this
      simp only [ok_bind, LuaState.createtable, LuaState.top_pushed, this,
        LuaState.push_of_lt (L := L.checkstack (MAX_DEPTH * 2 + 8).toNat)
          (by rw [LuaState.top_checkstack]; omega)]
      cases Decoder.decodeChildren counter pto.fields 1 (.table [] []) ⟨ptr, 0, toInt size⟩ with
      | ok q =>
        obtain ⟨r, d⟩ := q
        simp only [Except.map, LuaState.set_pushed_succ]
        split_ifs <;> rfl
      | error err => cases err <;> rfl

theorem walks_stack_discipline :
    (∀ (f : Field) (L : LuaState) (d : Int) (e : Encoder), d ≤ MAX_DEPTH →
      (L.top : Int) + 2 * (MAX_DEPTH - d) + 2 ≤ L.limit →
        Stack.Encoder.encodeOne f L.top d L e = (Encoder.encodeOne counter f (L.get L.top) d e).map (L, ·) ∧
          Avoids (Stack.Encoder.encodeOne f L.top d L e) (.undefined .stackOverflow)) ∧
    (∀ (f : Field) (L : LuaState) (d : Int) (dec : Decoder), d ≤ MAX_DEPTH → 0 < L.top →
      (L.top : Int) + 2 * (MAX_DEPTH - d) + 2 ≤ L.limit →
        Stack.Decoder.decodeOne f L.top d L dec =
            (Decoder.decodeOne counter f d (L.get L.top) dec).map (fun (p, dec) => (L.set L.top p, dec)) ∧
          Avoids (Stack.Decoder.decodeOne f L.top d L dec) (.undefined .stackOverflow) ∧
          ∀ L' dec', Stack.Decoder.decodeOne f L.top d L dec = .ok (L', dec') →
            L'.top = L.top ∧ ∃ x, x ≠ .nil ∧ L' = L.set L.top ((L.get L.top).setfield f.name x)) ∧
    (∀ (ctx : Context) (id : BitVec 64) (L : LuaState),
      (L.top = 3 → Stack.encodePto ctx id L =
          (encodePto ctx id (L.get 3)).map
            (fun s => (L.checkstack (MAX_DEPTH * 2 + 8).toNat).pushed (.string s))) ∧
        Avoids (Stack.encodePto ctx id L) (.undefined .stackOverflow)) ∧
    (∀ (mem : Nat → UInt8) (ctx : Context) (id : BitVec 64) (L : LuaState),
      Stack.decodePto mem ctx id L =
          (decodePto mem ctx id (L.get 3) (L.get 4)).map (L.checkstack (MAX_DEPTH * 2 + 8).toNat).pushed ∧
        Avoids (Stack.decodePto mem ctx id L) (.undefined .stackOverflow)) := by
  refine ⟨fun f L d e _ hroom => ?_, fun f L d dec _ h0 hroom => ?_,
    fun ctx id L => ⟨encodePto_onStack ctx id, Stack.encodePto_avoids_stackOverflow ctx id L⟩,
    fun mem ctx id L => ?_⟩
  · exact ⟨encodeOne_onStack f L d e (by omega), (encodeOne_balanced f L.top L d e (by omega)).1⟩
  · have heq := decodeOne_onStack f L d dec h0 (by omega)
    refine ⟨heq, heq ▸ avoids_map (decodeOne_avoids_stackOverflow counter f d _ dec), fun L' dec' h => ?_⟩
    obtain ⟨⟨p, dec''⟩, hp, hL⟩ := map_eq_ok.mp (heq ▸ h)
    obtain ⟨x, hx, rfl⟩ := decodeOne_stores counter f hp
    cases hL
    exact ⟨LuaState.top_set _ _ _, x, hx, rfl⟩
  · have heq := decodePto_onStack mem ctx id L
    exact ⟨heq, heq ▸ avoids_map (decodePto_avoids_stackOverflow mem ctx id _ _)⟩

end Entries

end PtoCodec
