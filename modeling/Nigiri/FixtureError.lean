import Nigiri.OpenChannel
import Nigiri.Peg

/-! What the fixture has last seen of its nodes, and the errors of its bootstrap. An observation
is rendered only into the text of a timeout and is kept in parts. -/
namespace Nigiri.Lnd
open Nigiri.WireFormat

/-- A public key is its serialization. -/
structure LndSyncStatus where
  publicKey : Bytes
  blockHeight : UInt32
  networkIsRegtest : Bool
  syncedToChain : Bool
  syncedToGraph : Bool
  deriving DecidableEq, Repr

/-- Balances of a channel are millisatoshis. -/
structure ChannelReadiness where
  active : Bool
  localBalance : UInt64
  deriving DecidableEq, Repr

def isTransientLndReadiness {Hash : Type} : LndError Hash → Bool
  | .transport .. | .timeout .. => true
  | .status code _ => match code with
    | .unavailable | .deadlineExceeded | .resourceExhausted | .aborted | .unknown => true
    | _ => false
  | _ => false

mutual

/-- What a wait was last seen doing: its operation, the error that delayed it, or a state that is
not yet the one it waits for. -/
inductive Observation (Hash : Type) where
  | operation (text : String)
  | error (source : LndError Hash)
  | notReady (what : String) (source : LndError Hash)
  | tipNotReady (source : FixtureError Hash)
  | channel (point : OutPoint) (bitcoinHeight : UInt64)
    (alice : Option ChannelReadiness) (aliceInfo : Option LndSyncStatus)
    (bob : Option ChannelReadiness) (bobInfo : Option LndSyncStatus)

/-- A failed bootstrap step keeps the error it came from, and a client error is the chain's. -/
inductive FixtureError (Hash : Type) where
  | readinessTimeout (service : String) (lastObservation : Observation Hash)
  | bootstrap (operation : String) (source : LndError Hash)
  | client (source : Core.NigiriError)

end

end Nigiri.Lnd
