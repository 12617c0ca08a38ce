import PtoCodec.RoundTrip

namespace PtoCodec

namespace Val

def Code (P : Val → Prop) : Prop :=
  ∀ a a' s s', P a → P a' → a.layout ++ s = a'.layout ++ s' → a = a' ∧ s = s'

section Primitives

variable {s s' : Bytes}

theorem le_append_inj {n m w : Nat} (h : le n w ++ s = le m w ++ s') : n % 256 ^ w = m % 256 ^ w ∧ s = s' := by
  obtain ⟨h1, h2⟩ := List.append_inj h (by simp)
  exact ⟨by simpa using congrArg leValue h1, h2⟩

theorem bitVec_append_inj {k w : Nat} {x y : BitVec k} (h : le x.toNat w ++ s = le y.toNat w ++ s')
    (hk : k = 8 * w) : x = y ∧ s = s' := by
  obtain ⟨hv, rfl⟩ := le_append_inj h
  have hpow : (2 : Nat) ^ k = 256 ^ w := by rw [hk, pow_mul]; norm_num
  have hx := x.isLt
  have hy := y.isLt
  rw [hpow] at hx hy
  exact ⟨BitVec.eq_of_toNat_eq (by rwa [Nat.mod_eq_of_lt hx, Nat.mod_eq_of_lt hy] at hv), rfl⟩

theorem varint7_eq {x : Int} (hx : x.natAbs < 2 ^ 56) :
    ∃ l ≤ 7, x.natAbs < 256 ^ l ∧ varint7 x = UInt8.ofNat (2 * l + if 0 < x then 1 else 0) :: le x.natAbs l := by
  by_cases h0 : x = 0
  · subst h0
    exact ⟨0, by omega, by norm_num, rfl⟩
  · obtain ⟨-, hl7, hlt⟩ := varintLen_spec hx
    refine ⟨varintLen x.natAbs, hl7, by rwa [pow_mul] at hlt, ?_⟩
    rw [varint7, if_neg h0]

theorem varint7_append_inj {x y : Int} (hx : x.natAbs < 2 ^ 56) (hy : y.natAbs < 2 ^ 56)
    (h : varint7 x ++ s = varint7 y ++ s') : x = y ∧ s = s' := by
  obtain ⟨lx, hlx7, hlx, hvx⟩ := varint7_eq hx
  obtain ⟨ly, hly7, hly, hvy⟩ := varint7_eq hy
  rw [hvx, hvy, List.cons_append, List.cons_append, List.cons.injEq] at h
  have ht := congrArg UInt8.toNat h.1
  simp only [toNat_byte] at ht
  have hl : lx = ly := by split_ifs at ht <;> omega
  subst hl
  obtain ⟨hv, rfl⟩ := le_append_inj h.2
  rw [Nat.mod_eq_of_lt hlx, Nat.mod_eq_of_lt hly] at hv
  exact ⟨by split_ifs at ht <;> omega, rfl⟩

theorem Scalar.code (type : Int) : Code (Scalar type) := by
  intro a a' s s' ha ha' h
  cases a <;> cases a' <;> simp only [Scalar, EType.code] at ha ha' <;> try omega
  case bool.bool b b' =>
    simp only [layout, List.singleton_append, List.cons.injEq] at h
    refine ⟨?_, h.2⟩
    cases b <;> cases b' <;> simp_all
  case short.short x y => simpa using bitVec_append_inj (show le x.toNat 2 ++ s = le y.toNat 2 ++ s' from h) rfl
  case int.int x y => simpa [BitVec.toInt_inj] using varint7_append_inj ha.2 ha'.2 h
  case float.float x y => simpa using bitVec_append_inj (show le x.toNat 4 ++ s = le y.toNat 4 ++ s' from h) rfl
  case double.double x y => simpa using bitVec_append_inj (show le x.toNat 8 ++ s = le y.toNat 8 ++ s' from h) rfl
  case string.string u v =>
    simp only [layout, List.append_assoc] at h
    obtain ⟨hl, h⟩ := le_append_inj h
    obtain ⟨rfl, rfl⟩ := List.append_inj h (by omega)
    exact ⟨rfl, rfl⟩

end Primitives

theorem flatten_append_inj {κ : Type} {Q : κ → Val → Prop} {s s' : Bytes} :
    ∀ {ks : List κ} {xs ys : List Val}, (∀ k ∈ ks, Code (Q k)) → xs.length = ks.length →
      ys.length = ks.length → (∀ p ∈ ks.zip xs, Q p.1 p.2) → (∀ p ∈ ks.zip ys, Q p.1 p.2) →
      (xs.map layout).flatten ++ s = (ys.map layout).flatten ++ s' → xs = ys ∧ s = s'
  | [], [], [], _, _, _, _, _, h => ⟨rfl, by simpa using h⟩
  | k :: ks, x :: xs, y :: ys, hQ, hx, hy, hqx, hqy, h => by
    simp only [List.map_cons, List.flatten_cons, List.append_assoc] at h
    simp only [List.zip_cons_cons, List.forall_mem_cons] at hqx hqy hQ
    obtain ⟨rfl, hrest⟩ := hQ.1 x y _ _ hqx.1 hqy.1 h
    obtain ⟨rfl, rfl⟩ := flatten_append_inj hQ.2 (by simpa using hx) (by simpa using hy) hqx.2 hqy.2 hrest
    exact ⟨rfl, rfl⟩
  | [], _ :: _, _, _, hx, hy, _, _, _ | [], _, _ :: _, _, hx, hy, _, _, _
  | _ :: _, [], _, _, hx, hy, _, _, _ | _ :: _, _, [], _, hx, hy, _, _, _ => by simp_all

theorem array_code {P : Val → Prop} (hP : Code P) :
    Code fun a => ∃ xs, a = .array xs ∧ xs.length ≤ 0xffff ∧ ∀ x ∈ xs, P x := by
  rintro _ _ s s' ⟨xs, rfl, hlen, hxs⟩ ⟨ys, rfl, hlen', hys⟩ h
  simp only [layout_array, List.append_assoc] at h
  obtain ⟨hl, h⟩ := le_append_inj h
  have hl : ys.length = xs.length := by omega
  have hall : ∀ {zs : List Val}, (∀ z ∈ zs, P z) → ∀ p ∈ (List.replicate xs.length ()).zip zs, P p.2 :=
    fun hz p hp => hz p.2 (List.of_mem_zip hp).2
  obtain ⟨rfl, rfl⟩ :=
    flatten_append_inj (fun _ _ => hP) (List.length_replicate _ _).symm (by rw [List.length_replicate, hl])
      (hall hxs) (hall hys) h
  exact ⟨rfl, rfl⟩

theorem pairs_ext {α β : Type} {l l' : List (α × β)} (h1 : l.map Prod.fst = l'.map Prod.fst)
    (h2 : l.map Prod.snd = l'.map Prod.snd) : l = l' := by
  rw [← List.zip_unzip l, ← List.zip_unzip l', List.unzip_fst, List.unzip_snd, List.unzip_fst,
    List.unzip_snd, h1, h2]

section Typed

variable {δ : Type} {D : Depth δ}

theorem record_code {d : δ} {childs : List Field} (hc : ∀ c ∈ childs, Code (Typed D d c)) :
    Code fun a => a.RecordOf childs ∧ ∀ p ∈ childs.zip a.values, Typed D d p.1 p.2 := by
  rintro (_ | _ | _ | _ | _ | _ | fields | _) (_ | _ | _ | _ | _ | _ | fields' | _) s s' ⟨hr, ht⟩ ⟨hr', ht'⟩ h <;>
    simp only [RecordOf] at hr hr'
  have hx : (fields.map Prod.snd).length = childs.length := by simpa using congrArg List.length hr
  have hy : (fields'.map Prod.snd).length = childs.length := by simpa using congrArg List.length hr'
  simp only [layout, layoutFields_eq] at h
  rw [show (fields.map fun p => p.2.layout) = (fields.map Prod.snd).map layout by simp,
    show (fields'.map fun p => p.2.layout) = (fields'.map Prod.snd).map layout by simp] at h
  obtain ⟨hv, rfl⟩ := flatten_append_inj hc hx hy ht ht' h
  exact ⟨by rw [pairs_ext (hr.trans hr'.symm) hv], rfl⟩

theorem typed_code (f : Field) : ∀ d : δ, Code (Typed D d f) := by
  induction f using Field.induction with
  | mk name array type childs ih =>
    intro d a a' s s' ha ha' h
    have hrec := record_code fun c hc => ih c hc (D.enter d ⟨name, array, type, childs⟩)
    cases ha with
    | scalar harr hs =>
      cases ha' with
      | scalar _ hs' => exact Scalar.code _ _ _ s s' hs hs' h
      | record _ hpto => exact absurd hpto (ne_of_lt hs.scalarCode.2)
      | scalars harr' | records harr' => exact absurd (harr.symm.trans harr') Bool.false_ne_true
    | record harr hpto _ hr ht =>
      cases ha' with
      | scalar _ hs' => exact absurd hpto (ne_of_lt hs'.scalarCode.2)
      | record _ _ _ hr' ht' => exact hrec _ _ s s' ⟨hr, ht⟩ ⟨hr', ht'⟩ h
      | scalars harr' | records harr' => exact absurd (harr.symm.trans harr') Bool.false_ne_true
    | scalars harr hc hlen hs =>
      cases ha' with
      | scalar harr' | record harr' => exact absurd (harr'.symm.trans harr) Bool.false_ne_true
      | scalars _ _ hlen' hs' => exact array_code (Scalar.code _) _ _ s s' ⟨_, rfl, hlen, hs⟩ ⟨_, rfl, hlen', hs'⟩ h
      | records _ hpto => exact absurd hpto (ne_of_lt hc.2)
    | records harr hpto _ hlen hr ht =>
      cases ha' with
      | scalar harr' | record harr' => exact absurd (harr'.symm.trans harr) Bool.false_ne_true
      | scalars _ hc => exact absurd hpto (ne_of_lt hc.2)
      | records _ _ _ hlen' hr' ht' =>
        exact array_code hrec _ _ s s' ⟨_, rfl, hlen, fun x hx => ⟨hr x hx, ht x hx⟩⟩
          ⟨_, rfl, hlen', fun x hx => ⟨hr' x hx, ht' x hx⟩⟩ h

end Typed

end Val

theorem encodePto_message {ctx : Context} {id : BitVec 64} {P : Protocol} {v : LuaValue} {bytes : Bytes}
    (hP : ctx.getPto (toUInt16 id.toInt) = some P) (h : encodePto ctx id v = .ok bytes) :
    bytes = (Val.record (extractFields P.fields v)).layout ∧ (Val.record (extractFields P.fields v)).RecordOf P.fields ∧
      ∀ p ∈ P.fields.zip (Val.record (extractFields P.fields v)).values, Typed counter 1 p.1 p.2 := by
  obtain ⟨P', e, hP', he, rfl⟩ := encodePto_eq_ok h
  cases hP.symm.trans hP'
  obtain ⟨-, hb, ht, -⟩ := Encoder.encodeFields_sound he
  exact ⟨hb, by simp [Val.RecordOf], forall_zip_extractFields.mpr ht⟩

theorem encodePto_injective {ctx : Context} {id : BitVec 64} {P : Protocol} {v v' : LuaValue} {bytes : Bytes}
    (hP : ctx.getPto (toUInt16 id.toInt) = some P) (h : encodePto ctx id v = .ok bytes)
    (h' : encodePto ctx id v' = .ok bytes) : extractFields P.fields v = extractFields P.fields v' := by
  obtain ⟨hb, hr, ht⟩ := encodePto_message hP h
  obtain ⟨hb', hr', ht'⟩ := encodePto_message hP h'
  have := Val.record_code (fun c _ => Val.typed_code c 1) _ _ [] [] ⟨hr, ht⟩ ⟨hr', ht'⟩
    (by rw [List.append_nil, List.append_nil, ← hb, ← hb'])
  exact Val.record.inj this.1

theorem encodePto_injective_sample :
    sampleContext.getPto (toUInt16 (0 : BitVec 64).toInt) = some sampleProtocol ∧
      encodePto sampleContext 0 sampleRecord = .ok [3, 7, 2, 0, 104, 105] ∧
      encodePto sampleContext 0 (.table [] [("name", .string [104, 105]), ("id", .number 0x401C000000000000)]) =
        .ok [3, 7, 2, 0, 104, 105] ∧
      extractFields sampleProtocol.fields sampleRecord =
        extractFields sampleProtocol.fields (.table [] [("name", .string [104, 105]), ("id", .number 0x401C000000000000)]) :=
  ⟨rfl, rfl, rfl, @encodePto_injective sampleContext 0 sampleProtocol _ _ _ rfl rfl rfl⟩

end PtoCodec
