import EfiSshServer.Packet

/-!
# Password authentication: `SendAuthFailure` and `HandleUserauth`

Of the five ways out of `HandleUserauth` only the last two call the callback.
-/

namespace EfiSshServer

open StateProgram LinkM

def authFailurePayload : Bytes :=
  (((wInit sshPlBuf).wByte msgUserauthFailure).wCStr "password" |>.wByte 0).data

def authSuccessPayload : Bytes := ((wInit sshPlBuf).wByte msgUserauthSuccess).data

@[simp] theorem msgOf_authFailurePayload : msgOf authFailurePayload = msgUserauthFailure := by
  rw [authFailurePayload]
  exact msgOf_data (WBuf.first_wByte (WBuf.first_wCStr (first_message _) _) _)

@[simp] theorem msgOf_authSuccessPayload : msgOf authSuccessPayload = msgUserauthSuccess := by
  rw [authSuccessPayload]
  exact msgOf_data (first_message _)

def sendAuthFailure (E : Env) : LinkM Int := sendPacket E authFailurePayload

/-- `sizeof(c->user)` and `sizeof(pw)`. -/
abbrev userSize : ℕ := 64
abbrev pwSize : ℕ := 256

/-- Ask the callback about the user stored in the connection and this password. -/
def callAuth (E : Env) (pw : Bytes) : LinkM Bool := do
  let c ← conn
  let user := cString c.login.user
  let pass := cString pw
  let ok ← ask (.auth user pass) (E.auth · user pass)
  record fun _ => .auth user pass ok c
  return ok

/-- The end of `HandleUserauth`: the callback decides. -/
def checkPassword (E : Env) (pw : Bytes) : LinkM Int := do
  if ← callAuth E pw then
    update fun c =>
      { c with login := { c.login with authenticated := true }, state := .conn }
    sendPacket E authSuccessPayload
  else
    update fun c => { c with login := { c.login with authTries := c.login.authTries + 1 } }
    if (← conn).login.authTries ≥ sshMaxAuthTries then
      fail E discNoMoreAuthMethods "too many failed attempts"
    else sendAuthFailure E

def handleUserauth (E : Env) (p : Bytes) : LinkM Int := do
  let user := rStr (rInit (p.drop 1))
  let service := rStr user.rest
  let method := rStr service.rest
  if method.rest.err then return ← fail E discProtocolError "bad USERAUTH_REQUEST"
  if !nameIs service.val "ssh-connection" then
    return ← fail E discProtocolError "unknown service"
  update fun c => { c with login := { c.login with user := user.val.take (userSize - 1) } }
  if !nameIs method.val "password" then return ← sendAuthFailure E
  let change := rByte method.rest
  if change.val ≠ 0 then return ← sendAuthFailure E
  let pass := rStr change.rest
  if pass.rest.err = true ∨ pass.val.length ≥ pwSize then return ← sendAuthFailure E
  checkPassword E pass.val

end EfiSshServer
