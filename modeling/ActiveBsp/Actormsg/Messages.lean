import ActiveBsp.VectorDistribution

/-!
# The management messages

One constructor for each instruction that the manager loop understands. A
message carries what its getters return; the sender is known to the receiver.
-/
namespace ActiveBsp

set_option autoImplicit false

structure CreateActorMessage where
  actorName : String
  pids : List Int
  deriving DecidableEq, Repr

/-- `CallActorMessage`; `futureKey` is the field of the envelope, not the key of the future. -/
structure CallActorMessage where
  functionName : String
  args : Bytes
  futureKey : Int
  deriving DecidableEq, Repr

structure StoreResultMessage where
  resId : Int
  data : Bytes
  deriving DecidableEq, Repr

namespace StoreResultMessage

def dataSize (msg : StoreResultMessage) : Nat := msg.data.length

end StoreResultMessage

structure StoreResultPartMessage where
  resId : Int
  data : Bytes
  offset : Nat
  fullDataSize : Nat
  deriving DecidableEq, Repr

namespace StoreResultPartMessage

def dataSize (msg : StoreResultPartMessage) : Nat := msg.data.length

end StoreResultPartMessage

/-- `result_req_part_t`; `dst` is where the client wants the bytes in its buffer. -/
structure ResultReqPart where
  resid : Int
  offset : Nat
  size : Nat
  dst : Nat
  deriving DecidableEq, Repr

structure GetResultPartsMessage where
  forwardTo : Int
  parts : List ResultReqPart
  deriving DecidableEq, Repr

/-- `DistributeVectorMessage` with its `block_distr_args_t`. -/
structure DistributeVectorMessage where
  n : Nat
  elemSize : Nat
  deriving DecidableEq, Repr

structure PrefetchMessage where
  futurePid : Int
  futureKey : Int
  dvSize : Nat
  deriving DecidableEq, Repr

/-- `FetchMessage`: the processes and part keys of the prefetching actor, and what it asks for. -/
structure FetchMessage where
  pids : List Int
  keys : List Int
  reqFutureKey : Int
  resFutureKey : Int
  dvSize : Nat
  deriving DecidableEq, Repr

namespace FetchMessage

def npids (msg : FetchMessage) : Nat := msg.pids.length

end FetchMessage

inductive ActorMessage where
  | stop
  | createActor (msg : CreateActorMessage)
  | destroyActor (askAnswer : Bool)
  | callActor (msg : CallActorMessage)
  | registerFutureData (futureKey : Int) (futureData : Bytes)
  | getFutureData (futureKey : Int)
  | releaseFuture (futureKey : Int)
  | storeResult (msg : StoreResultMessage)
  | storeResultPart (msg : StoreResultPartMessage)
  | releaseResult (resId : Int)
  | getResultParts (msg : GetResultPartsMessage)
  | distributeVector (msg : DistributeVectorMessage)
  | prefetch (msg : PrefetchMessage)
  | fetch (msg : FetchMessage)
  deriving DecidableEq, Repr

/-- `ActiveObjectRequest`: a call with its sender and the key chosen for its future. -/
structure ActiveObjectRequest where
  callActorMessage : CallActorMessage
  sender : Int
  localkey : Int
  deriving DecidableEq, Repr

end ActiveBsp
