import EfiSshServer.Runs

/-!
# Scenarios

What it takes to run the server on a concrete input: scripts of API calls, a
platform on which nothing fails, and the packets of a client.  The later files use
scenarios to show that the states they speak about are reached, and to show the
inputs on which the code goes wrong.
-/

namespace EfiSshServer

open StateProgram

variable {E : Env} {s t : Server}

/-! ## Scripts of calls -/

/-- The calls one after the other. -/
def runCalls (E : Env) : List ApiCall → Server → Except Fault Server
  | [], s => .ok s
  | call :: calls, s =>
      match runCall E call s with
      | .ok (_, t) => runCalls E calls t
      | .error f => .error f

theorem runCalls_runs {s₀ : Server} {calls : List ApiCall} (h : Runs E s₀ s)
    (hrun : runCalls E calls s = .ok t) : Runs E s₀ t := by
  induction calls generalizing s with
  | nil =>
      cases hrun
      exact h
  | cons call calls ih =>
      rw [runCalls] at hrun
      split at hrun
      · next u hcall => exact ih (h.call call hcall) hrun
      · cases hrun

/-- A new server after the calls, for what the transport delivers; `none` when there
is none. -/
def scenario (E : Env) (calls : List ApiCall) (input : List ReadResult) : Option Server := do
  (runCalls E calls (← sshNew E 0 [] [] input)).toOption

theorem scenario_runs {calls : List ApiCall} {input : List ReadResult}
    (h : scenario E calls input = some s) :
    ∃ s₀, sshNew E 0 [] [] input = some s₀ ∧ Runs E s₀ s := by
  obtain ⟨s₀, hnew, hrun⟩ := Option.bind_eq_some_iff.mp h
  refine ⟨s₀, hnew, ?_⟩
  cases hcalls : runCalls E calls s₀ with
  | error f =>
      rw [hcalls] at hrun
      cases hrun
  | ok u =>
      rw [hcalls] at hrun
      cases hrun
      exact runCalls_runs .none hcalls

/-- The first call of a scenario, and the run behind it. -/
theorem scenario_first {call : ApiCall} {calls : List ApiCall} {input : List ReadResult}
    (h : scenario E (call :: calls) input = some s) :
    ∃ s₀ s₁, sshNew E 0 [] [] input = some s₀ ∧ runCall E call s₀ = .ok ((), s₁) ∧
      Runs E s₁ s := by
  obtain ⟨s₀, hnew, hrun⟩ := Option.bind_eq_some_iff.mp h
  rw [runCalls] at hrun
  split at hrun
  · next s₁ hcall =>
      refine ⟨s₀, s₁, hnew, hcall, ?_⟩
      cases hcalls : runCalls E calls s₁ with
      | error f =>
          rw [hcalls] at hrun
          cases hrun
      | ok u =>
          rw [hcalls] at hrun
          cases hrun
          exact runCalls_runs .none hcalls
  · cases hrun

theorem scenario_reachable {calls : List ApiCall} {input : List ReadResult}
    (h : scenario E calls input = some s) : Reachable E s := by
  obtain ⟨s₀, hnew, hruns⟩ := scenario_runs h
  exact ⟨0, [], [], input, s₀, hnew, hruns⟩

/-- A test of where a scenario ends shows that a run leads to such a state. -/
theorem exists_runs {P : Server → Prop} [DecidablePred P] (calls : List ApiCall)
    (input : List ReadResult)
    (h : (scenario E calls input).any (fun s => decide (P s)) = true) :
    ∃ s₀ s, sshNew E 0 [] [] input = some s₀ ∧ Runs E s₀ s ∧ P s := by
  cases hend : scenario E calls input with
  | none =>
      rw [hend] at h
      cases h
  | some s =>
      rw [hend] at h
      obtain ⟨s₀, hnew, hruns⟩ := scenario_runs hend
      exact ⟨s₀, s, hnew, hruns, of_decide_eq_true h⟩

/-- And that such a state is reached. -/
theorem exists_reachable {P : Server → Prop} [DecidablePred P] (calls : List ApiCall)
    (input : List ReadResult)
    (h : (scenario E calls input).any (fun s => decide (P s)) = true) :
    ∃ s, Reachable E s ∧ P s := by
  obtain ⟨s₀, s, hnew, hruns, hP⟩ := exists_runs calls input h
  exact ⟨s, ⟨0, [], [], input, s₀, hnew, hruns⟩, hP⟩

/-- The same for the outcome of a program. -/
theorem exists_ok {ε α : Type} {out : Except ε α} {P : α → Prop} [DecidablePred P]
    (h : out.toOption.any (fun a => decide (P a)) = true) : ∃ a, out = .ok a ∧ P a := by
  cases out with
  | error f => cases h
  | ok a => exact ⟨a, rfl, of_decide_eq_true h⟩

/-! ## A platform on which nothing fails

The key stream and every digest are zeros, so that a client can do without keys. -/

def zeros (n : ℕ) : List.Vector UInt8 n := List.Vector.replicate n 0

/-- `accepts` decides about users and passwords. -/
def plainEnv (accepts : Bytes → Bytes → Bool) : Env where
  alloc _ _ := true
  random _ n := some (zeros n)
  wr _ _ := true
  clock _ := 0
  auth _ := accepts
  hmacOk _ := true
  hmac _ _ _ := zeros _
  aesOk _ := true
  keystream _ _ _ := 0
  aesSetKeyOk _ := true
  sha256 _ := zeros 32
  curveMakeKey _ := some []
  curveExportOk _ := true
  curvePublic _ := zeros 32
  curveImportOk _ := true
  curveSharedOk _ := true
  curveShared _ _ := (zeros 32).toList
  signOk _ := true
  sign _ _ _ := (zeros 64).toList
  initRngOk _ := true
  loadHostKeyOk _ := true
  hostPublic _ := zeros 32
  aesInitOk _ := true

/-- `SshNew` succeeds on it. -/
theorem plainEnv_new (accepts : Bytes → Bytes → Bool) (connSize : ℕ) (hostSeed : Bytes)
    (calls : List Call) (input : List ReadResult) :
    ∃ s, sshNew (plainEnv accepts) connSize hostSeed calls input = some s :=
  ⟨_, rfl⟩

theorem plainEnv_reliable (accepts : Bytes → Bytes → Bool) : (plainEnv accepts).Reliable where
  alloc _ _ := rfl
  random _ _ := Option.some_ne_none _
  hmac _ := rfl
  aes _ := rfl
  aesSetKey _ := rfl
  curveMakeKey _ := Option.some_ne_none _
  curveExport _ := rfl
  curveImport _ := rfl
  curveShared _ := rfl
  secret _ _ := rfl
  sign _ := rfl
  signature _ _ _ := rfl

/-! ## A client -/

/-- A packet before the first key exchange is through, padded with zeros. -/
def clearFrame (p : Bytes) : Bytes := plainPacket p (zeros (padLenOf 8 p.length)).toList

/-- A packet after it, with the MAC of `plainEnv`. -/
def sealedFrame (p : Bytes) : Bytes :=
  plainPacket p (zeros (padLenOf 16 p.length)).toList ++ (zeros (macLenOf .sha256)).toList

def clientVersionLine : Bytes := ascii "SSH-2.0-client" ++ [cr, lf]

/-- A `KEXINIT` that offers what the server offers. -/
def clientKexInit : Bytes := (kexInitPayload (zeros 16).toList).data

def kexdhInit : Bytes := (((wInit sshPlBuf).wByte msgKexdhInit).wStr (zeros 32).toList).data

def serviceRequest : Bytes := (((wInit sshPlBuf).wByte msgServiceRequest).wCStr "ssh-userauth").data

def passwordRequest (user pass : String) : Bytes :=
  (((wInit sshPlBuf).wByte msgUserauthRequest).wCStr user
    |>.wCStr "ssh-connection" |>.wCStr "password" |>.wByte 0 |>.wCStr pass).data

def globalRequest : Bytes :=
  ((((wInit sshPlBuf).wByte msgGlobalRequest).wCStr "keepalive@openssh.com").wByte 1).data

def channelOpenRequest (window maxPkt : UInt32) : Bytes :=
  (((wInit sshPlBuf).wByte msgChannelOpen).wCStr "session"
    |>.wU32 0 |>.wU32 window |>.wU32 maxPkt).data

/-- A `CHANNEL_REQUEST` that asks for a reply. -/
def channelRequest (type : String) : Bytes :=
  (((wInit sshPlBuf).wByte msgChannelRequest).wU32 0 |>.wCStr type |>.wByte 1).data

def clientData (data : Bytes) : Bytes := (channelDataPayload 0 data).data

def clientClose : Bytes := channelReplyPayload msgChannelClose 0

/-- The first key exchange. -/
def clientKex : Bytes :=
  clientVersionLine ++ clearFrame clientKexInit ++ clearFrame kexdhInit ++
    clearFrame newkeysPayload

/-- Up to a connection that is logged in. -/
def clientAuth (user pass : String) : Bytes :=
  clientKex ++ sealedFrame serviceRequest ++ sealedFrame (passwordRequest user pass)

/-- Up to a channel that is open. -/
def clientLogin (user pass : String) : Bytes :=
  clientAuth user pass ++ sealedFrame (channelOpenRequest 1000 100)

end EfiSshServer
