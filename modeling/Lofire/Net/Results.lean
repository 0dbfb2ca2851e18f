import Lofire.Net.Wire

/-!
# Results of replies (`lofire-net/src/errors.rs`)

The conversions of a reply to the result that it stands for. `none` is a panic: the message is not a
response, its code is the code of no error, or its content is not of the kind that is looked for.
-/

namespace Lofire

namespace BrokerMessage

/-- `impl From<BrokerMessage> for Result<(), ProtocolError>` -/
def toResult (msg : BrokerMessage) : Option (Except ProtocolError Unit) := do
  if (← msg.isResponse) then
    let res ← msg.result
    if res = 0 then return .ok () else return .error (← ProtocolError.tryFrom res)
  else none

/-- `impl From<BrokerMessage> for Result<ObjectId, ProtocolError>` -/
def toObjectId (msg : BrokerMessage) : Option (Except ProtocolError ObjectId) := do
  if (← msg.isResponse) then
    let res ← msg.result
    if res = 0 then return .ok (← msg.responseObjectId)
    else return .error (← ProtocolError.tryFrom res)
  else none

/-- `impl From<BrokerMessage> for Result<Option<Block>, ProtocolError>` -/
def toBlock (msg : BrokerMessage) : Option (Except ProtocolError (Option Block)) := do
  if (← msg.isResponse) then
    let res ← msg.result
    if (← if res = 0 then some true
        else (ProtocolError.tryFrom res).map ProtocolError.isStream) then
      if (← msg.isOverlay) then return .ok (← msg.responseBlock) else return .ok none
    else return .error (← ProtocolError.tryFrom res)
  else none

end BrokerMessage

end Lofire
