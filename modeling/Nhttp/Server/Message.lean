import Nhttp.Lib.Reading
import Nhttp.Protocol.Header

/-!
# Requests, responses and handlers

* `Request`, `Response`: the data a handler gets and returns. The body of a request is what the
  handler reads.
* `Handler`: user code, which may read the body in pieces of any sizes before it answers.
-/

namespace Nhttp.Server

open Octets Reading Protocol

structure Request where
  resource : HttpResource
  headers : HttpHeaders
  hostname : Bytes
deriving DecidableEq, Repr

structure Response where
  status : ℕ := 200
  headers : HttpHeaders := []
  body : Option Bytes := none
  contentLength : ℤ := 0
  upgradeHandler : Bool := false
deriving DecidableEq, Repr

def makeResponse (statusCode : ℕ) : Response := { status := statusCode }

abbrev Handler := Request → Reader UInt8 Response

end Nhttp.Server
