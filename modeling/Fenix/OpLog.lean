import Fenix.IndexedSet

namespace Fenix

/-- What ends the process: the `fatal_print` calls by their message, the assertions as one case, and a
message that is longer than what it is received in. An index below zero, which wraps around, is told as well,
and so are a rank that the communicator does not have and collectives that the ranks call in different orders. -/
inductive Abort where
  | assertion
  | undefinedRegion
  | remoteUnknown
  | conflictingRegions
  | missingLogs
  | partnerMissing
  | missingMessages
  | sendUnexpected
  | recvUnexpected
  | beforeCurrentRegion
  | duplicateRegion
  | regionConflictsWithRoot
  | regionUnknownToRoot
  | missingCollective
  | unreadableLog
  | truncated
  | underflow
  | overflow
  | overrun
  | noSuchRank
  | collectiveOrder
  deriving DecidableEq, Repr

/-- A counted buffer of a recorded datatype, with the bytes copied from the user. -/
structure MPIBuffer where
  datatype : Int
  count : Int
  bytes : List UInt8
  deriving DecidableEq, Repr

structure SendLog where
  idx : Int
  buf : MPIBuffer
  tag : Int
  deriving DecidableEq, Repr

/-- A posted receive; the request handle tells it from others. -/
structure IrecvLog where
  count : Int
  datatype : Int
  tag : Int
  request : Nat
  deriving DecidableEq, Repr

inductive CollectiveOp where
  | barrier
  | bcast (root : Int) (buf : MPIBuffer)
  | reduce (root op : Int) (sbuf : MPIBuffer)
  | allreduce (op : Int) (sbuf : MPIBuffer)
  deriving DecidableEq, Repr

structure CollectiveLog where
  idx : Int
  op : CollectiveOp
  deriving DecidableEq, Repr

end Fenix
