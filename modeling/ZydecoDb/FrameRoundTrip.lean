import ZydecoDb.Frame

namespace ZydecoDb

open Lib

theorem protocolError_ne_outOfBounds {α : Type} (msg : String) :
    protocolError (α := α) msg ≠ .error .outOfBounds := fun h => by cases h

theorem ok_ne_outOfBounds {α : Type} (x : α) :
    (.ok x : FrameResult α) ≠ .error .outOfBounds := fun h => by cases h

theorem toNat_lt_pow (n : UInt64) : n.toNat < 256 ^ 8 := by
  have h := n.toNat_lt
  omega

theorem parseRequestHeader_ok {header : Bytes} {r : RequestHeader}
    (h : parseRequestHeader header = .ok r) : envelopeHeaderLen ≤ header.length := by
  by_contra hlen
  rw [parseRequestHeader, if_pos (Nat.lt_of_not_le hlen)] at h
  cases h

theorem parseRequestHeader_ne_outOfBounds (header : Bytes) :
    parseRequestHeader header ≠ .error .outOfBounds := by
  unfold parseRequestHeader
  split
  next => exact protocolError_ne_outOfBounds _
  next hlen =>
    have hsix : 6 ≤ header.length := Nat.le_of_not_lt hlen
    refine bind_ne_outOfBounds (byteAt_ne_outOfBounds (by omega)) fun version _ => ?_
    split
    next => exact protocolError_ne_outOfBounds _
    next =>
      refine bind_ne_outOfBounds (byteAt_ne_outOfBounds (by omega)) fun opcode _ => ?_
      refine bind_ne_outOfBounds (fieldAt_ne_outOfBounds (by omega)) fun len _ => ?_
      split <;> exact ok_ne_outOfBounds _

namespace RequestEnvelope

theorem parseRequestHeader_encode (r : RequestEnvelope) (h : r.payload.length < 2 ^ 32) :
    parseRequestHeader r.encode = .ok (.known r.command r.payload.length) := by
  have hlen : envelopeHeaderLen ≤ r.encode.length := by
    simp only [encode, List.length_append, List.length_singleton, length_toBe, envelopeHeaderLen]
    omega
  have hfield : fieldAt (E := ProtocolError) 4 2 r.encode = .ok r.payload.length :=
    fieldAt_append [protoVersion, r.command.asU8] r.payload (by omega) rfl rfl
  have hversion : byteAt (E := ProtocolError) r.encode 0 = .ok protoVersion := rfl
  have hopcode : byteAt (E := ProtocolError) r.encode 1 = .ok r.command.asU8 := rfl
  unfold parseRequestHeader
  rw [if_neg (Nat.not_lt.mpr hlen), hversion, hopcode, hfield]
  simp only [bind, Except.bind, ne_eq, not_true_eq_false, if_false, Command.fromU8_asU8]

theorem decode_encode (r : RequestEnvelope) (h : r.payload.length < 2 ^ 32) :
    decode r.encode = .ok r := by
  have hbody : slice (E := ProtocolError) r.encode envelopeHeaderLen r.encode.length =
      .ok r.payload := by
    have hsplit : r.encode =
        ([protoVersion, r.command.asU8] ++ toBe 4 r.payload.length) ++ (r.payload ++ []) := by
      simp [encode]
    rw [hsplit]
    refine slice_append _ r.payload [] ?_ ?_
    · simp [envelopeHeaderLen]
    · simp only [List.append_nil, List.length_append]
  have hpayload : slice (E := ProtocolError) r.payload 0 r.payload.length = .ok r.payload := by
    rw [slice_ok (Nat.zero_le _) (Nat.le_refl _), List.drop_zero, Nat.sub_zero, List.take_length]
  unfold decode parseHeader
  rw [parseRequestHeader_encode r h]
  simp only [bind, Except.bind]
  rw [hbody]
  simp only [Nat.lt_irrefl, if_false]
  rw [hpayload]

theorem decode_ne_outOfBounds (buf : Bytes) : decode buf ≠ .error .outOfBounds := by
  unfold decode
  have hheader : parseHeader buf ≠ .error .outOfBounds := by
    refine bind_ne_outOfBounds (parseRequestHeader_ne_outOfBounds buf) fun header _ => ?_
    cases header with
    | known command len => exact ok_ne_outOfBounds _
    | unknown opcode len => exact protocolError_ne_outOfBounds _
  refine bind_ne_outOfBounds hheader fun r hr => ?_
  have hlen : envelopeHeaderLen ≤ buf.length := by
    cases hp : parseRequestHeader buf with
    | ok header => exact parseRequestHeader_ok hp
    | error e =>
      rw [parseHeader, hp] at hr
      cases hr
  refine bind_ne_outOfBounds (slice_ne_outOfBounds hlen (Nat.le_refl _)) fun body _ => ?_
  split
  next => exact protocolError_ne_outOfBounds _
  next hbody =>
    refine bind_ne_outOfBounds (slice_ne_outOfBounds (Nat.zero_le _) (Nat.le_of_not_lt hbody))
      fun payload _ => ?_
    exact ok_ne_outOfBounds _

end RequestEnvelope

theorem copyFrom_ne_outOfBounds {b : Bytes} (h : b.length = 16) :
    RoutingKey.copyFrom b ≠ .error .outOfBounds := by
  rw [RoutingKey.copyFrom, dif_pos h]
  exact ok_ne_outOfBounds _

theorem copyFrom_bytes (k : RoutingKey) : RoutingKey.copyFrom k.bytes = .ok k :=
  dif_pos k.length_eq

theorem copyFrom_slice {p b : Bytes} (h : slice (E := ProtocolError) p 0 16 = .ok b) :
    RoutingKey.copyFrom b ≠ .error .outOfBounds := by
  unfold slice at h
  split at h
  next hlen =>
    cases h
    refine copyFrom_ne_outOfBounds ?_
    simp only [List.length_take, List.length_drop]
    omega
  next => cases h

theorem slice_routingKey (k : RoutingKey) (rest : Bytes) :
    slice (E := ProtocolError) (k.bytes ++ rest) 0 16 = .ok k.bytes := by
  refine slice_append [] k.bytes rest rfl ?_
  rw [List.length_nil, Nat.zero_add, k.length_eq]

namespace PutPayload

theorem length_encode (p : PutPayload) :
    p.encode.length = fixed + p.key.length + p.value.length := by
  simp only [encode, List.length_append, length_toBe, p.routingKey.length_eq, fixed]
  omega

theorem slices (p : PutPayload) :
    slice (E := ProtocolError) p.encode fixed (fixed + p.key.length) = .ok p.key ∧
      slice (E := ProtocolError) p.encode (fixed + p.key.length) p.encode.length = .ok p.value := by
  have hlen := p.length_encode
  obtain ⟨a, ha, hencode⟩ : ∃ a : Bytes, a.length = fixed ∧ p.encode = a ++ (p.key ++ p.value) := by
    refine ⟨p.routingKey.bytes ++ (toBe 8 p.txid.toNat ++ (toBe 8 p.expiresAt.toNat ++
      (toBe 4 p.key.length ++ toBe 4 p.value.length))),
      by simp [p.routingKey.length_eq, fixed], ?_⟩
    simp only [encode, List.append_assoc]
  constructor
  · rw [hencode]
    exact slice_append a p.key p.value ha.symm (by rw [ha])
  · have hsplit : p.encode = (a ++ p.key) ++ (p.value ++ []) := by
      rw [hencode, List.append_nil, List.append_assoc]
    rw [hlen, hsplit]
    exact slice_append (a ++ p.key) p.value [] (by simp [ha]) (by simp [ha])

theorem decode_encode (p : PutPayload) (hkey : p.key.length < 2 ^ 32)
    (hvalue : p.value.length < 2 ^ 32) : decode p.encode = .ok p := by
  have hroute := p.routingKey.length_eq
  have hlen := p.length_encode
  have hslice : slice (E := ProtocolError) p.encode 0 16 = .ok p.routingKey.bytes :=
    slice_routingKey p.routingKey _
  have htxid : fieldAt (E := ProtocolError) 8 16 p.encode = .ok p.txid.toNat :=
    fieldAt_append p.routingKey.bytes _ (toNat_lt_pow _) rfl hroute.symm
  have hexpires : fieldAt (E := ProtocolError) 8 24 p.encode = .ok p.expiresAt.toNat := by
    refine fieldAt_append (p.routingKey.bytes ++ toBe 8 p.txid.toNat)
      (toBe 4 p.key.length ++ (toBe 4 p.value.length ++ (p.key ++ p.value)))
      (toNat_lt_pow _) ?_ (by simp [hroute])
    rw [encode, List.append_assoc]
  have hkeyLen : fieldAt (E := ProtocolError) 4 32 p.encode = .ok p.key.length := by
    refine fieldAt_append (p.routingKey.bytes ++ (toBe 8 p.txid.toNat ++
      toBe 8 p.expiresAt.toNat)) (toBe 4 p.value.length ++ (p.key ++ p.value)) (by omega) ?_
      (by simp [hroute])
    simp only [encode, List.append_assoc]
  have hvalueLen : fieldAt (E := ProtocolError) 4 36 p.encode = .ok p.value.length := by
    refine fieldAt_append (p.routingKey.bytes ++ (toBe 8 p.txid.toNat ++
      (toBe 8 p.expiresAt.toNat ++ toBe 4 p.key.length))) (p.key ++ p.value) (by omega) ?_
      (by simp [hroute])
    simp only [encode, List.append_assoc]
  unfold decode
  rw [if_neg (by omega), hslice, htxid, hexpires, hkeyLen, hvalueLen]
  simp only [bind, Except.bind]
  rw [copyFrom_bytes]
  dsimp only
  rw [if_neg (not_not.mpr hlen), p.slices.1, p.slices.2, UInt64.ofNat_toNat, UInt64.ofNat_toNat]

theorem decode_ne_outOfBounds (p : Bytes) : decode p ≠ .error .outOfBounds := by
  unfold decode
  split
  next => exact protocolError_ne_outOfBounds _
  next hlen =>
    have hfixed : 40 ≤ p.length := Nat.le_of_not_lt hlen
    refine bind_ne_outOfBounds (slice_ne_outOfBounds (Nat.zero_le _) (by omega)) fun b hb => ?_
    refine bind_ne_outOfBounds (copyFrom_slice hb) fun routingKey _ => ?_
    refine bind_ne_outOfBounds (fieldAt_ne_outOfBounds (by omega)) fun txid _ => ?_
    refine bind_ne_outOfBounds (fieldAt_ne_outOfBounds (by omega)) fun expiresAt _ => ?_
    refine bind_ne_outOfBounds (fieldAt_ne_outOfBounds (by omega)) fun keyLen _ => ?_
    refine bind_ne_outOfBounds (fieldAt_ne_outOfBounds (by omega)) fun valueLen _ => ?_
    split
    next => exact protocolError_ne_outOfBounds _
    next hexact =>
      have htotal : p.length = fixed + keyLen + valueLen := not_not.mp hexact
      refine bind_ne_outOfBounds (slice_ne_outOfBounds (by omega) (by omega)) fun key _ => ?_
      refine bind_ne_outOfBounds (slice_ne_outOfBounds (by omega) (by omega)) fun value _ => ?_
      exact ok_ne_outOfBounds _

end PutPayload

namespace KeyPayload

theorem decode_encode (p : KeyPayload) (hkey : p.key.length < 2 ^ 32) :
    decode p.encode = .ok p := by
  have hroute := p.routingKey.length_eq
  have hlen : p.encode.length = fixed + p.key.length := by
    simp only [encode, List.length_append, length_toBe, hroute, fixed]
    omega
  have hslice : slice (E := ProtocolError) p.encode 0 16 = .ok p.routingKey.bytes :=
    slice_routingKey p.routingKey _
  have hseq : fieldAt (E := ProtocolError) 8 16 p.encode = .ok p.snapshotSeq.toNat :=
    fieldAt_append p.routingKey.bytes _ (toNat_lt_pow _) rfl hroute.symm
  have hkeyLen : fieldAt (E := ProtocolError) 4 24 p.encode = .ok p.key.length := by
    refine fieldAt_append (p.routingKey.bytes ++ toBe 8 p.snapshotSeq.toNat) p.key (by omega) ?_
      (by simp [hroute])
    rw [encode, List.append_assoc]
  have hkeySlice : slice (E := ProtocolError) p.encode fixed p.encode.length = .ok p.key := by
    have hsplit : p.encode = (p.routingKey.bytes ++ (toBe 8 p.snapshotSeq.toNat ++
        toBe 4 p.key.length)) ++ (p.key ++ []) := by
      simp only [encode, List.append_nil, List.append_assoc]
    rw [hlen, hsplit]
    exact slice_append _ p.key [] (by simp [hroute, fixed]) (by simp [hroute, fixed])
  unfold decode
  rw [if_neg (by omega), hslice, hseq, hkeyLen]
  simp only [bind, Except.bind]
  rw [copyFrom_bytes]
  dsimp only
  rw [if_neg (not_not.mpr hlen), hkeySlice, UInt64.ofNat_toNat]

theorem decode_ne_outOfBounds (p : Bytes) : decode p ≠ .error .outOfBounds := by
  unfold decode
  split
  next => exact protocolError_ne_outOfBounds _
  next hlen =>
    have hfixed : 28 ≤ p.length := Nat.le_of_not_lt hlen
    refine bind_ne_outOfBounds (slice_ne_outOfBounds (Nat.zero_le _) (by omega)) fun b hb => ?_
    refine bind_ne_outOfBounds (copyFrom_slice hb) fun routingKey _ => ?_
    refine bind_ne_outOfBounds (fieldAt_ne_outOfBounds (by omega)) fun snapshotSeq _ => ?_
    refine bind_ne_outOfBounds (fieldAt_ne_outOfBounds (by omega)) fun keyLen _ => ?_
    split
    next => exact protocolError_ne_outOfBounds _
    next =>
      refine bind_ne_outOfBounds (slice_ne_outOfBounds hfixed (Nat.le_refl _)) fun key _ => ?_
      exact ok_ne_outOfBounds _

end KeyPayload

end ZydecoDb
