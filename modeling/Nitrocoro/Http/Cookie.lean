import Nitrocoro.Http.Header

/-! `Cookie`: the text of a `Set-Cookie` header and back. -/
namespace Nitrocoro.Http
open Text

inductive SameSite where
  | unset
  | strict
  | lax
  | none
  deriving DecidableEq

structure Cookie where
  name : Bytes := []
  value : Bytes := []
  domain : Bytes := []
  path : Bytes := []
  expires : Bytes := []
  maxAge : Int := -1
  sameSite : SameSite := .unset
  secure : Bool := false
  httpOnly : Bool := false
  deriving DecidableEq

namespace Cookie

def setAttribute (name value : Bytes) (cookie : Cookie) : Cookie :=
  if name = ascii "path" then { cookie with path := value }
  else if name = ascii "domain" then { cookie with domain := value }
  else if name = ascii "expires" then { cookie with expires := value }
  else if name = ascii "max-age" then
    match Numeral.stoi value with
    | .ok maxAge => { cookie with maxAge }
    | .error _ => cookie
  else if name = ascii "samesite" then
    let v := toLower value
    if v = ascii "strict" then { cookie with sameSite := .strict }
    else if v = ascii "lax" then { cookie with sameSite := .lax }
    else if v = ascii "none" then { cookie with sameSite := .none }
    else cookie
  else cookie

def applyToken (cookie : Cookie) (piece : Bytes) : Cookie :=
  let token := trim 32 piece
  if toLower token = ascii "secure" then { cookie with secure := true }
  else if toLower token = ascii "httponly" then { cookie with httpOnly := true }
  else match findChar 61 token with
    | none => cookie
    | some eq =>
      cookie.setAttribute (toLower (trim 32 (token.take eq))) (trim 32 (token.drop (eq + 1)))

def fromString (raw : Bytes) : Cookie :=
  match pieces 59 raw with
  | [] => {}
  | first :: attributes =>
    let first := trim 32 first
    match findChar 61 first with
    | none => {}
    | some eq =>
      let cookie : Cookie :=
        { name := trim 32 (first.take eq), value := trim 32 (first.drop (eq + 1)) }
      if cookie.name = [] then cookie else attributes.foldl applyToken cookie

/-- The attributes in the order they are written, each without its leading `; `. -/
def attributes (cookie : Cookie) : List Bytes :=
  (if cookie.expires = [] then [] else [ascii "Expires=" ++ cookie.expires]) ++
  (if 0 ≤ cookie.maxAge then [ascii "Max-Age=" ++ Numeral.print 10 cookie.maxAge.toNat] else []) ++
  (if cookie.domain = [] then [] else [ascii "Domain=" ++ cookie.domain]) ++
  (if cookie.path = [] then [] else [ascii "Path=" ++ cookie.path]) ++
  (if cookie.secure then [ascii "Secure"] else []) ++
  (if cookie.httpOnly then [ascii "HttpOnly"] else []) ++
  (match cookie.sameSite with
    | .strict => [ascii "SameSite=Strict"]
    | .lax => [ascii "SameSite=Lax"]
    | .none => [ascii "SameSite=None"]
    | .unset => [])

def toString (cookie : Cookie) : Bytes :=
  cookie.name ++ ascii "=" ++ cookie.value ++ cookie.attributes.flatMap (ascii "; " ++ ·)

end Cookie
end Nitrocoro.Http
