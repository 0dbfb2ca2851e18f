import Lofire.Broker.Remote
import Lofire.Net.MessageCodecs

/-!
# Replies that the client cannot take

The reader loop of the client takes every message without a panic (`readMessageOrPanic_eq`). The
conversions of a reply do not: they unwrap the error of a result code, which is documented as
including codes of no `ProtocolError`, and the accessors of the contents panic on other contents
than the one that was asked for (`Conversion.returns_iff`).
-/

namespace Lofire

namespace BrokerMessage

variable {m : BrokerMessage} {code : UInt16}

/-- The reply to a request to an overlay. -/
def overlayResponse : BrokerMessage → Option BrokerOverlayResponse
  | v0 (.brokerOverlayMessage ⟨_, .brokerOverlayResponse r⟩) _ => some r
  | _ => none

/-- A response is one of a broker or one of an overlay. -/
theorem isResponse_cases (h : m.isResponse = some true) :
    (∃ r padding, m = v0 (.brokerResponse r) padding) ∨
      ∃ overlay r padding, m = v0 (.brokerOverlayMessage ⟨overlay, .brokerOverlayResponse r⟩)
        padding := by
  cases m with
  | close => cases h
  | v0 content padding =>
    cases content with
    | brokerRequest r => cases h
    | brokerResponse r => exact .inl ⟨r, padding, rfl⟩
    | brokerOverlayMessage message =>
      obtain ⟨overlay, content⟩ := message
      cases content with
      | brokerOverlayRequest r => cases h
      | brokerOverlayResponse r => exact .inr ⟨overlay, r, padding, rfl⟩
      | event e => cases h

theorem exists_result (h : m.isResponse = some true) : ∃ code, m.result = some code := by
  obtain ⟨r, padding, rfl⟩ | ⟨overlay, r, padding, rfl⟩ := isResponse_cases h
  · exact ⟨_, rfl⟩
  · exact ⟨_, rfl⟩

/-! ## The conversions -/

theorem toResult_eq (h : m.isResponse = some true) (hcode : m.result = some code) :
    m.toResult = if code = 0 then some (.ok ()) else (ProtocolError.tryFrom code).map .error := by
  rw [toResult, h, hcode]
  by_cases hzero : code = 0
  · rw [if_pos hzero]
    simp only [hzero, Option.bind_eq_bind, Option.bind_some, if_true]
    rfl
  · rw [if_neg hzero]
    simp only [hzero, Option.bind_eq_bind, Option.bind_some, if_true, if_false]
    cases ProtocolError.tryFrom code <;> rfl

theorem toObjectId_eq (h : m.isResponse = some true) (hcode : m.result = some code) :
    m.toObjectId = if code = 0 then m.responseObjectId.map .ok
      else (ProtocolError.tryFrom code).map .error := by
  rw [toObjectId, h, hcode]
  by_cases hzero : code = 0
  · rw [if_pos hzero]
    simp only [hzero, Option.bind_eq_bind, Option.bind_some, if_true]
    cases m.responseObjectId <;> rfl
  · rw [if_neg hzero]
    simp only [hzero, Option.bind_eq_bind, Option.bind_some, if_true, if_false]
    cases ProtocolError.tryFrom code <;> rfl

/-- The codes with which a block can come. -/
def CarriesBlock (code : UInt16) : Prop :=
  code = 0 ∨ code = ProtocolError.partialContent.toU16 ∨ code = ProtocolError.endOfStream.toU16

instance (code : UInt16) : Decidable (CarriesBlock code) := inferInstanceAs (Decidable (_ ∨ _))

/-- The codes of a stream are those that decode to an error of a stream. -/
theorem carriesBlock_iff (hzero : code ≠ 0) {e : ProtocolError}
    (he : ProtocolError.tryFrom code = some e) : CarriesBlock code ↔ e.isStream = true := by
  have hcode := ProtocolError.tryFrom_eq_some_iff.mp he
  subst hcode
  rw [CarriesBlock, or_iff_right hzero, ProtocolError.isStream_iff]
  constructor
  · rintro (h | h)
    · exact .inl (Option.some.inj (he.symm.trans (ProtocolError.tryFrom_eq_some_iff.mpr h)))
    · exact .inr (Option.some.inj (he.symm.trans (ProtocolError.tryFrom_eq_some_iff.mpr h)))
  · rintro (rfl | rfl)
    · exact .inl rfl
    · exact .inr rfl

theorem not_carriesBlock (hzero : code ≠ 0) (he : ProtocolError.tryFrom code = none) :
    ¬ CarriesBlock code := by
  rintro (h | rfl | rfl)
  · exact hzero h
  · rw [ProtocolError.tryFrom_toU16] at he
    cases he
  · rw [ProtocolError.tryFrom_toU16] at he
    cases he

/-- The content of a reply to an overlay is looked at where the code may come with a block. -/
theorem toBlock_eq (h : m.isResponse = some true) (hcode : m.result = some code) :
    m.toBlock = if CarriesBlock code then
        if m.overlayResponse.isSome then m.responseBlock.map .ok else some (.ok none)
      else (ProtocolError.tryFrom code).map .error := by
  have hoverlay : m.isOverlay = some m.overlayResponse.isSome := by
    obtain ⟨r, padding, rfl⟩ | ⟨overlay, r, padding, rfl⟩ := isResponse_cases h
    · rfl
    · rfl
  rw [toBlock, h, hcode, hoverlay]
  by_cases hzero : code = 0
  · rw [if_pos (show CarriesBlock code from .inl hzero)]
    simp only [hzero, Option.bind_eq_bind, Option.bind_some, if_true]
    split
    · cases m.responseBlock <;> rfl
    · rfl
  · cases he : ProtocolError.tryFrom code with
    | none =>
      rw [if_neg (not_carriesBlock hzero he)]
      simp only [hzero, he, Option.bind_eq_bind, Option.bind_some, if_true, if_false]
      rfl
    | some e =>
      simp only [carriesBlock_iff hzero he, he, hzero, Option.bind_eq_bind, Option.bind_some,
        if_true, if_false, Option.map_some]
      split
      · split
        · cases m.responseBlock <;> rfl
        · rfl
      · rfl

end BrokerMessage

/-! ## What a conversion can take -/

/-- The conversions that the client's requests use. -/
inductive Conversion
  | result
  | objectId
  | block

namespace Conversion

open BrokerMessage

/-- The conversion does not panic. -/
def Returns (m : BrokerMessage) : Conversion → Prop
  | result => ∃ res, m.toResult = some res
  | objectId => ∃ res, m.toObjectId = some res
  | block => ∃ res, m.toBlock = some res

/-- The content that the conversion needs. -/
def Content (m : BrokerMessage) (code : UInt16) : Conversion → Prop
  | result => True
  | objectId => code = 0 → ∃ r id, m.overlayResponse = some r ∧ r.content = some (.objectId id)
  | block => CarriesBlock code → ∀ r, m.overlayResponse = some r →
      ∀ content, r.content = some content → ∃ b, content = .block b

/-- The code is that of success or of an error, and the content is what the conversion needs. -/
def Fits (m : BrokerMessage) (k : Conversion) : Prop :=
  ∃ code, m.result = some code ∧ code.toNat ≤ 20 ∧ k.Content m code

end Conversion

namespace BrokerMessage

variable {m : BrokerMessage} {code : UInt16}

theorem exists_error_iff {α : Type} (hzero : code ≠ 0) :
    (∃ res : Except ProtocolError α, (ProtocolError.tryFrom code).map .error = some res) ↔
      code.toNat ≤ 20 := by
  rw [← and_iff_right (a := code ≠ 0) (b := code.toNat ≤ 20) hzero,
    ← ProtocolError.exists_tryFrom_iff]
  simp only [Option.map_eq_some_iff]
  exact ⟨fun ⟨_, e, he, _⟩ => ⟨e, he⟩, fun ⟨e, he⟩ => ⟨_, e, he, rfl⟩⟩

theorem carriesBlock_le (h : CarriesBlock code) : code.toNat ≤ 20 := by
  obtain rfl | rfl | rfl := h
  · decide
  · decide
  · decide

/-- An object id is found in a reply to an overlay with this content. -/
theorem exists_responseObjectId_iff (h : m.isResponse = some true) :
    (∃ id, m.responseObjectId = some id) ↔
      ∃ r id, m.overlayResponse = some r ∧ r.content = some (.objectId id) := by
  obtain ⟨r, padding, rfl⟩ | ⟨overlay, r, padding, rfl⟩ := isResponse_cases h
  · constructor
    · rintro ⟨id, hid⟩
      cases hid
    · rintro ⟨r', id, hr, -⟩
      cases hr
  · show (∃ id, r.objectId = some id) ↔ ∃ r' id, some r = some r' ∧ r'.content = some (.objectId id)
    unfold BrokerOverlayResponse.objectId
    constructor
    · rintro ⟨id, hid⟩
      split at hid
      · exact ⟨r, _, rfl, by assumption⟩
      · cases hid
    · rintro ⟨r', id, hr, hcontent⟩
      cases hr
      exact ⟨id, by rw [hcontent]⟩

/-- A block is looked for in a reply to an overlay without another content. -/
theorem exists_responseBlock_iff {r : BrokerOverlayResponse} (hr : m.overlayResponse = some r)
    (h : m.isResponse = some true) :
    (∃ b?, m.responseBlock = some b?) ↔
      ∀ content, r.content = some content → ∃ b, content = .block b := by
  obtain ⟨r', padding, rfl⟩ | ⟨overlay, r', padding, rfl⟩ := isResponse_cases h
  · cases hr
  · cases hr
    show (∃ b?, r.block = some b?) ↔ _
    unfold BrokerOverlayResponse.block
    cases hcontent : r.content with
    | none => exact iff_of_true ⟨_, rfl⟩ fun _ h => by cases h
    | some content =>
      cases content with
      | block b =>
        refine iff_of_true ⟨_, rfl⟩ fun _ h => ?_
        cases h
        exact ⟨b, rfl⟩
      | objectId id =>
        refine iff_of_false (by rintro ⟨b, hb⟩; cases hb) fun hall => ?_
        obtain ⟨b, hb⟩ := hall _ rfl
        cases hb
      | overlayStatusResp resp =>
        refine iff_of_false (by rintro ⟨b, hb⟩; cases hb) fun hall => ?_
        obtain ⟨b, hb⟩ := hall _ rfl
        cases hb

end BrokerMessage

namespace Conversion

open BrokerMessage

variable {m : BrokerMessage}

/-- A conversion returns if and only if the reply fits. -/
theorem returns_iff_fits (h : m.isResponse = some true) (k : Conversion) :
    k.Returns m ↔ k.Fits m := by
  obtain ⟨code, hcode⟩ := exists_result h
  have hfits : k.Fits m ↔ code.toNat ≤ 20 ∧ k.Content m code := by
    constructor
    · rintro ⟨code', hcode', hfits⟩
      rw [hcode] at hcode'
      cases hcode'
      exact hfits
    · exact fun hfits => ⟨code, hcode, hfits⟩
  rw [hfits]
  cases k with
  | result =>
    show (∃ res, m.toResult = some res) ↔ _ ∧ True
    rw [toResult_eq h hcode, and_true]
    by_cases hzero : code = 0
    · rw [if_pos hzero]
      exact iff_of_true ⟨_, rfl⟩ (by rw [hzero]; decide)
    · rw [if_neg hzero]
      exact exists_error_iff hzero
  | objectId =>
    show (∃ res, m.toObjectId = some res) ↔ _ ∧ (code = 0 → _)
    rw [toObjectId_eq h hcode]
    by_cases hzero : code = 0
    · rw [if_pos hzero, ← exists_responseObjectId_iff h]
      have hle : code.toNat ≤ 20 := by
        rw [hzero]
        decide
      rw [and_iff_right hle]
      simp only [Option.map_eq_some_iff, hzero, forall_const]
      exact ⟨fun ⟨_, i, hi, _⟩ => ⟨i, hi⟩, fun ⟨i, hi⟩ => ⟨_, i, hi, rfl⟩⟩
    · rw [if_neg hzero, and_iff_left (fun h => absurd h hzero)]
      exact exists_error_iff hzero
  | block =>
    show (∃ res, m.toBlock = some res) ↔ _ ∧ (CarriesBlock code → _)
    rw [toBlock_eq h hcode]
    by_cases hcarries : CarriesBlock code
    · rw [if_pos hcarries, and_iff_right (carriesBlock_le hcarries)]
      cases hr : m.overlayResponse with
      | none =>
        rw [if_neg (by simp)]
        exact iff_of_true ⟨_, rfl⟩ fun _ _ h => by cases h
      | some r =>
        rw [if_pos (by simp)]
        simp only [Option.map_eq_some_iff, hcarries, forall_const, Option.some.injEq,
          forall_eq']
        rw [← exists_responseBlock_iff hr h]
        exact ⟨fun ⟨_, b, hb, _⟩ => ⟨b, hb⟩, fun ⟨b, hb⟩ => ⟨_, b, hb, rfl⟩⟩
    · rw [if_neg hcarries, and_iff_left (fun h => absurd h hcarries)]
      have hzero : code ≠ 0 := fun hzero => hcarries (.inl hzero)
      exact exists_error_iff hzero

end Conversion

/-! ## The reader loop -/

namespace BrokerConnectionRemote

/-- The body of `connection_reader_loop` for a message; `none` is a panic of an accessor of the
message. The guards of the maps are not held where a panic could poison them. -/
def readMessageOrPanic (c : BrokerConnectionRemote) (message : BrokerMessage) :
    Option BrokerConnectionRemote :=
  if message.isClose then some c.stopActors.closing
  else do
    if (← message.isRequest) then
      -- the id is printed
      let _ ← message.id
      return c.closing
    else if (← message.isResponse) then
      let id ← message.id
      match c.actors id with
      | some call =>
        match if call.addr then call.actor.send message else none with
        | some actor => return c.setCall id { call with actor }
        | none => return c.closing
      | none =>
        match c.streamActors id with
        | some call =>
          match if call.addr then call.actor.send message else none with
          | some actor => return c.setStreamCall id { call with actor }
          | none => return c.closing
        | none => return c.closing
    else return c

/-- No accessor panics: the loop has looked at the kind of the message before. -/
theorem readMessageOrPanic_eq (c : BrokerConnectionRemote) (message : BrokerMessage) :
    c.readMessageOrPanic message = some (c.readMessage message) := by
  have send (id : UInt64) (hid : message.id = some id) (hclose : message.isClose = false)
      (hrequest : message.isRequest = some false) (hresponse : message.isResponse = some true) :
      c.readMessageOrPanic message = some (c.readMessage message) := by
    simp only [readMessageOrPanic, readMessage, hid, hclose, hrequest, hresponse,
      Option.bind_eq_bind, Option.bind_some, Option.some.injEq, Bool.false_eq_true, if_false,
      if_true]
    cases hcall : c.actors id with
    | some call =>
      cases hsent : if call.addr then call.actor.send message else none with
      | some actor => simp only [hsent, Option.pure_def]
      | none => simp only [hsent, Option.pure_def]
    | none =>
      cases hcall : c.streamActors id with
      | some call =>
        cases hsent : if call.addr then call.actor.send message else none with
        | some actor => simp only [hsent, Option.pure_def]
        | none => simp only [hsent, Option.pure_def]
      | none => rfl
  cases message with
  | close => rfl
  | v0 content padding =>
    cases content with
    | brokerRequest r => rfl
    | brokerResponse r => exact send r.id rfl rfl rfl rfl
    | brokerOverlayMessage m =>
      obtain ⟨overlay, content⟩ := m
      cases content with
      | brokerOverlayRequest r => rfl
      | brokerOverlayResponse r => exact send r.id rfl rfl rfl rfl
      | event e => rfl

end BrokerConnectionRemote

/-! ## The replies that the client takes -/

namespace Conversion

/-- A conversion of a reply returns if and only if the code is that of success or of an error and
the content is what the conversion needs. The reader loop takes every message. -/
theorem returns_iff {m : BrokerMessage} (h : m.isResponse = some true) (k : Conversion) :
    (k.Returns m ↔ k.Fits m) ∧ ∀ (c : BrokerConnectionRemote) (message : BrokerMessage),
      ∃ c', c.readMessageOrPanic message = some c' := by
  refine ⟨returns_iff_fits h k, fun c message => ?_⟩
  rw [c.readMessageOrPanic_eq message]
  exact ⟨_, rfl⟩

/-- A reply with the code after the last error. -/
def unknownCode : BrokerMessage := .v0 (.brokerResponse ⟨1, 21⟩) []

/-- The unknown code is one that a reply cannot have. -/
theorem returns_iff_unknownCode : ¬ result.Returns unknownCode := by
  rw [(returns_iff (m := unknownCode) rfl result).1]
  rintro ⟨code, hcode, hle, -⟩
  cases hcode
  exact absurd hle (by decide)

/-- A decoded reply with an unknown code is no result: the error of the code is unwrapped. -/
theorem not_returns :
    ¬ ∀ (frame : Bytes) (m : BrokerMessage),
      (Reference.wire Reference.brokerMessage fun _ _ _ => .ok ()).brokerMessage.fromSlice frame =
        some m →
      m.isResponse = some true → ∀ k : Conversion, k.Returns m := by
  intro h
  obtain ⟨res, hres⟩ := h _ _
    ((Reference.wire_messageLaws fun _ _ _ => .ok ()).roundTrips unknownCode) rfl result
  cases hres

end Conversion

end Lofire
