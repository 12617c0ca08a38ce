import PtoCodec.RoundTrip

namespace PtoCodec

namespace Decoder

structure Within (d : Decoder) : Prop where
  offset_nonneg : 0 ≤ d.offset
  offset_le : d.offset ≤ d.size

structure Moved (d d' : Decoder) : Prop where
  ptr : d'.ptr = d.ptr
  size : d'.size = d.size
  le : d.offset ≤ d'.offset
  within : d'.Within

theorem Moved.trans {d₁ d₂ d₃ : Decoder} (h₁ : Moved d₁ d₂) (h₂ : Moved d₂ d₃) : Moved d₁ d₃ :=
  ⟨h₂.ptr.trans h₁.ptr, h₂.size.trans h₁.size, h₁.le.trans h₂.le, h₂.within⟩

theorem Moved.refl {d : Decoder} (h : d.Within) : Moved d d :=
  ⟨rfl, rfl, le_refl _, h⟩

theorem moved_skip {d : Decoder} {k : Nat} (hw : d.Within) (hk : d.offset + k ≤ d.size) :
    Moved d (d.skip k) :=
  ⟨rfl, rfl, by simp only [skip]; omega, ⟨by have := hw.offset_nonneg; simp only [skip]; omega, hk⟩⟩

def Forward {α : Type} (read : Decoder → Except Fault (α × Decoder)) : Prop :=
  ∀ {d x d'}, d.Within → read d = .ok (x, d') → Moved d d'

section Reads

variable {d d' : Decoder} {k : Nat} {bytes : Bytes}

theorem readFixed_within (hw : d.Within) (h : d.readFixed k = .ok (bytes, d')) :
    d.offset + k ≤ d.size ∧ bytes = d.load k ∧ d' = d.skip k := by
  obtain ⟨rem, hrem, h⟩ := bind_eq_ok.mp h
  obtain ⟨rfl, -, hmax⟩ := intResult_eq_ok hrem
  split at h
  · cases h
  rename_i hk
  obtain ⟨off, hoff, h⟩ := bind_eq_ok.mp h
  obtain ⟨rfl, -⟩ := intResult_eq_ok hoff
  cases h
  have := hw.offset_le
  simp only [toSizeT, INT_MAX] at hk hmax
  exact ⟨by omega, rfl, rfl⟩

theorem readBytes_within (h : d.readBytes k = .ok (bytes, d')) :
    d.offset + k ≤ d.size ∧ bytes = d.load k ∧ d' = d.skip k := by
  obtain ⟨rem, hrem, h⟩ := bind_eq_ok.mp h
  obtain ⟨rfl, -⟩ := intResult_eq_ok hrem
  split at h
  · cases h
  obtain ⟨off, hoff, h⟩ := bind_eq_ok.mp h
  obtain ⟨rfl, -⟩ := intResult_eq_ok hoff
  cases h
  exact ⟨by omega, rfl, rfl⟩

theorem readFixed_forward (k : Nat) : Forward (readFixed · k) := fun hw h =>
  let ⟨hk, _, hd⟩ := readFixed_within hw h
  hd ▸ moved_skip hw hk

theorem readBytes_forward (k : Nat) : Forward (readBytes · k) := fun hw h =>
  let ⟨hk, _, hd⟩ := readBytes_within h
  hd ▸ moved_skip hw hk

theorem forward_map {α β : Type} {read : Decoder → Except Fault (α × Decoder)} {g : α × Decoder → β × Decoder}
    (hg : ∀ p, (g p).2 = p.2) (hr : Forward read) : Forward fun d => (read d).map g := fun {_ _ d'} hw h => by
  obtain ⟨⟨a, d1⟩, hp, hgp⟩ := map_eq_ok.mp h
  have hd : d' = d1 := by have := hg (a, d1); rwa [hgp] at this
  rw [hd]
  exact hr hw hp

theorem readVarint_forward : Forward readVarint := fun hw h => by
  obtain ⟨⟨tag, d1⟩, h1, h⟩ := bind_eq_ok.mp h
  have m1 := readFixed_forward 1 hw h1
  dsimp only at h
  split at h
  · cases h; exact m1
  obtain ⟨⟨value, d2⟩, h2, h⟩ := bind_eq_ok.mp h
  have m2 := m1.trans (readBytes_forward _ m1.within h2)
  dsimp only at h
  split_ifs at h <;> cases h <;> exact m2

theorem readVarint_tag_eight :
    Decoder.readVarint ⟨fun i => [17, 255, 255, 255, 255, 255, 255, 255, 255].getD i 0, 0, 9⟩ =
      .ok (-1, ⟨fun i => [17, 255, 255, 255, 255, 255, 255, 255, 255].getD i 0, 9, 9⟩) :=
  rfl

theorem readString_forward : Forward readString := fun hw h => by
  obtain ⟨⟨size, d1⟩, h1, h⟩ := bind_eq_ok.mp h
  have m1 := readFixed_forward 2 hw h1
  exact m1.trans (readBytes_forward _ m1.within h)

theorem readBool_forward : Forward readBool := fun hw h => by
  obtain ⟨⟨b, d1⟩, h1, h⟩ := bind_eq_ok.mp h
  dsimp only at h
  split_ifs at h
  cases h
  exact readFixed_forward 1 hw h1

theorem reads_forward :
    Forward readBool ∧ Forward readShort ∧ Forward readInt ∧ Forward readFloat ∧ Forward readDouble ∧
      Forward readStringValue :=
  ⟨readBool_forward, forward_map (by intro _; rfl) (readFixed_forward 2),
    forward_map (by intro _; rfl) readVarint_forward, forward_map (by intro _; rfl) (readFixed_forward 4),
    forward_map (by intro _; rfl) (readFixed_forward 8),
    forward_map (by intro _; rfl) readString_forward⟩

end Reads

section Walk

variable {read : Decoder → Except Fault (LuaValue × Decoder)}

theorem decodeMembers_forward (hr : Forward read) : ∀ is t, Forward (decodeMembers read is t)
  | [], _, _, _, _, hw, h => by cases h; exact Moved.refl hw
  | _ :: is, _, _, _, _, hw, h => by
    obtain ⟨⟨x, d1⟩, h1, h⟩ := bind_eq_ok.mp h
    have m1 := hr hw h1
    exact m1.trans (decodeMembers_forward hr is _ m1.within h)

theorem decodeValue_forward (hr : Forward read) (f : Field) (parent : LuaValue) :
    Forward (decodeValue read f parent) := fun hw h => by
  unfold decodeValue at h
  split at h
  · obtain ⟨⟨size, d1⟩, h1, h⟩ := bind_eq_ok.mp h
    have m1 := readFixed_forward 2 hw h1
    obtain ⟨⟨t, d2⟩, h2, h⟩ := bind_eq_ok.mp h
    cases h
    exact m1.trans (decodeMembers_forward hr _ _ m1.within h2)
  · obtain ⟨⟨x, d1⟩, h1, h⟩ := bind_eq_ok.mp h
    cases h
    exact hr hw h1

variable {δ : Type} (D : Depth δ)

theorem decodeChildren_forward {depth : δ} :
    ∀ {cs : List Field}, (∀ c ∈ cs, ∀ r, Forward (decodeOne D c depth r)) → ∀ r, Forward (decodeChildren D cs depth r)
  | [], _, _, _, _, _, hw, h => by cases h; exact Moved.refl hw
  | c :: cs, hc, _, _, _, _, hw, h => by
    obtain ⟨⟨r1, d1⟩, h1, h⟩ := bind_eq_ok.mp h
    have m1 := hc c (List.mem_cons_self c cs) _ hw h1
    exact m1.trans (decodeChildren_forward (fun c' hc' => hc c' (List.mem_cons_of_mem c hc')) _ m1.within h)

theorem decodeOne_forward (f : Field) : ∀ depth parent, Forward (decodeOne D f depth parent) := by
  induction f using Field.induction with
  | mk name array type childs ih =>
    intro depth parent d x d' hw h
    simp only [decodeOne] at h
    cases ht : EType.ofCode type with
    | none => simp only [ht] at h; cases h
    | some t =>
      simp only [ht] at h
      cases t
      case pto =>
        simp only [decodePto] at h
        split at h
        · cases h
        exact decodeValue_forward (fun hw h => decodeChildren_forward D (fun c hc => ih c hc _) _ hw h) _ _ hw h
      all_goals exact decodeValue_forward (by simp only [reads_forward]) _ _ hw h

end Walk

end Decoder

theorem decodePto_eq_ok {mem : Nat → UInt8} {ctx : Context} {id : BitVec 64} {arg3 arg4 r : LuaValue}
    (h : decodePto mem ctx id arg3 arg4 = .ok r) :
    ∃ P ptr size d, ctx.getPto (toUInt16 id.toInt) = some P ∧ decodeInput mem P arg3 arg4 = .ok (ptr, size) ∧
      Decoder.decodeChildren counter P.fields 1 (.table [] []) ⟨ptr, 0, toInt size⟩ = .ok (r, d) ∧
      d.offset = d.size := by
  simp only [decodePto] at h
  split at h
  · cases h
  rename_i P hP
  obtain ⟨⟨ptr, size⟩, hin, h⟩ := bind_eq_ok.mp h
  split at h <;> try cases h
  rename_i r' d hd
  split at h
  · cases h
  cases h
  exact ⟨P, ptr, size, d, hP, hin, hd, not_not.mp ‹_›⟩

theorem decodePto_varint_overflow :
    decodePto (fun _ => 0) intContext 0 (.string (18 :: List.replicate 9 0)) .nil =
      .error (.undefined .accumulatorOverflow) :=
  rfl

def boolContext : Context := ⟨[some ⟨"bool", [⟨"a", false, EType.bool.code, []⟩]⟩]⟩

theorem decodePto_lightuserdata_length :
    decodePto (fun _ => 1) boolContext 0 (.lightuserdata 0x1000) (.integer 0x100000001) =
      .ok (.table [] [("a", .boolean true)]) :=
  rfl

end PtoCodec
