import Mathlib.Tactic

namespace IdearNiu.Socket

/-- What one send() gives; recoverable are EAGAIN, EINTR and EINPROGRESS. -/
inductive SendResult where
  | sent (n : Nat)
  | recoverable
  | fatal
deriving DecidableEq

/-- The end of sock_write_bytes: error() aborts the process, and a call whose send()
never succeeds again stays in its loop. -/
inductive WriteResult where
  | wrote (t : Nat)
  | aborted
  | waiting
deriving DecidableEq

/-- The send loop, with the results that send() gives in turn. -/
def sendLoop : List SendResult → Nat → Nat → WriteResult
  | _,0,t => .wrote t
  | [],_+1,_ => .waiting
  | .sent n::sends,len+1,t => sendLoop sends (len+1-n) (t+n)
  | .recoverable::sends,len+1,t => sendLoop sends (len+1) t
  | .fatal::_,_+1,_ => .aborted

def sockWriteBytes (sends : List SendResult) (len : Nat) : WriteResult :=
  if len=0 then .aborted else sendLoop sends len 0

/-- What one recv() into a buffer of BUFSIZE bytes gives. -/
inductive RecvResult where
  | data (nr : Nat) (pos : 0<nr) (fits : nr≤1500)
  | shutdown
  | again
  | failed

/-- The text sent back for the statistics of a connection. -/
def replyLength (readStatistics : Nat) : Nat :=
  ("data received: "++toString readStatistics++"\n").length

end IdearNiu.Socket
