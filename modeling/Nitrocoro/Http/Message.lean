import Nitrocoro.Http.Cookie

/-! The messages that the parsers fill and the outgoing streams send. -/
namespace Nitrocoro.Http
open Text

structure HttpRequest where
  version : Version := .http11
  method : HttpMethod := .invalid
  path : Bytes := []
  rawPath : Bytes := []
  query : Bytes := []
  headers : HttpHeaderMap := []
  cookies : List (Bytes × Bytes) := []
  queries : List (Bytes × Bytes) := []
  transferMode : TransferMode := .untilClose
  contentLength : Nat := 0
  keepAlive : Bool := false
  deriving DecidableEq

structure HttpResponse where
  version : Version := .http11
  statusCode : Nat := 200
  statusReason : Bytes := []
  headers : HttpHeaderMap := []
  cookies : List Cookie := []
  transferMode : TransferMode := .contentLength
  contentLength : Nat := 0
  shouldClose : Bool := false
  deriving DecidableEq

end Nitrocoro.Http
