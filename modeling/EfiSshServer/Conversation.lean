import EfiSshServer.Numbering

/-!
# Every request is answered, once and in order

What SSH asks of a server is a conversation: a service request, a request to log in, a global
request that wants a reply, the opening of a channel, a channel request that wants a reply and
a message the server does not know each get one answer, and nothing else does.  The answers
carry no number of the request, so that they have to come in the order of the requests.

* `Conn.answerTo` says what is owed to a packet; what the password callback and the key
  exchange owe, their own events say (`Event.owes`).
* `Due E d` is the invariant with the answers `d` still to come.  A send of the next answer
  makes the debt smaller, any other send leaves it alone, and `Disconnect` ends it.
* `Conn.asks` says what a packet asks of the key exchange or the callback, and `Undecided q`
  is the invariant with the questions `q` still to be decided.
-/

namespace EfiSshServer

open StateProgram LinkM History

variable {E : Env} {p : Bytes} {d : List Bytes} {l : Link} {log : List Event}

/-! ## Questions and answers -/

/-- The messages that answer one. -/
def answerMessages : List UInt8 :=
  [msgUnimplemented, msgServiceAccept, msgNewkeys, msgKexdhReply, msgUserauthFailure,
    msgUserauthSuccess, msgRequestFailure, msgChannelOpenConfirm, msgChannelOpenFailure,
    msgChannelSuccess, msgChannelFailure]

/-- The messages that the server knows and does not answer of itself. -/
def unansweredMessages : List UInt8 :=
  [msgDisconnect, msgIgnore, msgDebug, msgUnimplemented, msgExtInfo, msgKexinit, msgKexdhInit,
    msgNewkeys, msgChannelData, msgChannelExtendedData, msgChannelWindowAdjust, msgChannelEof,
    msgChannelClose]

/-- The answer to a `CHANNEL_OPEN`: there is one channel, and it is a session. -/
def openAnswer (chanOpen : Bool) (p : Bytes) : Bytes :=
  let type := rStr (rInit (p.drop 1))
  let sender := (rU32 type.rest).val
  if nameIs type.val "session" && !chanOpen then openConfirmPayload sender
  else openFailurePayload sender chanOpen

/-- The request types of a terminal session are granted, `pty-req` if it parses. -/
def grantsRequest (type : Bytes) (rest : RBuf) : Bool :=
  if nameIs type "pty-req" then !(rU32 (rU32 (rStr rest).rest).rest).rest.err
  else nameIs type "shell" || nameIs type "window-change" || nameIs type "env"

/-- The answer to a `CHANNEL_REQUEST`. -/
def requestAnswer (remoteChan : UInt32) (p : Bytes) : List Bytes :=
  let r := readRequestHead p
  let msg := if grantsRequest r.type r.rest then msgChannelSuccess else msgChannelFailure
  if r.wantReply = 0 then [] else [channelReplyPayload msg remoteChan]

/-- What is owed to the message `p`.  The answer to an unknown one carries the number of its
packet. -/
def messageAnswer (c : Conn) (p : Bytes) : List Bytes :=
  if msgOf p ∈ unansweredMessages then []
  else if msgOf p = msgServiceRequest then [serviceAcceptPayload]
  else if msgOf p = msgUserauthRequest then
    if c.state = .conn ∨ offersPassword p = true then [] else [authFailurePayload]
  else if msgOf p = msgGlobalRequest then
    if globalWantsReply p then [requestFailurePayload] else []
  else if msgOf p = msgChannelOpen then [openAnswer c.chan.chanOpen p]
  else if msgOf p = msgChannelRequest then requestAnswer c.chan.remoteChan p
  else [unimplementedPayload (c.inDir.seq - 1)]

/-- What is owed to the packet `p` that arrives in `c`: nothing to a wrong guess. -/
def Conn.answerTo (c : Conn) (p : Bytes) : List Bytes :=
  if c.discards p then [] else messageAnswer c p

def Event.owes (E : Env) : Event → List Bytes
  | .dispatch p _ _ c => c.answerTo p
  | .auth _ _ ok _ => [if ok then authSuccessPayload else authFailurePayload]
  | .exchange x c => [x.reply E c, newkeysPayload]
  | _ => []

def Event.answers : Event → List Bytes
  | .sent p _ => if msgOf p ∈ answerMessages then [p] else []
  | _ => []

/-- What is owed to all that happened, oldest first. -/
def answersOwed (E : Env) (log : List Event) : List Bytes := log.reverse.flatMap (Event.owes E)

def answersSent (log : List Event) : List Bytes := log.reverse.flatMap Event.answers

theorem answersOwed_cons (e : Event) (log : List Event) :
    answersOwed E (e :: log) = answersOwed E log ++ e.owes E := by
  simp [answersOwed]

theorem answersSent_cons (e : Event) (log : List Event) :
    answersSent (e :: log) = answersSent log ++ e.answers := by
  simp [answersSent]

/-! ## The invariant -/

/-- An answer that could not be sent. -/
def Event.misses : Event → Bool
  | .sendFailed p _ => answerMessages.contains (msgOf p)
  | _ => false

/-- No answer is owed and none is missed. -/
def AllAnswered (E : Env) (log : List Event) : Prop :=
  log.any Event.misses = false → answersSent log = answersOwed E log

/-- A packet that arrives on an open connection finds all earlier ones answered. -/
def AskedInTurn (E : Env) : Event → List Event → Prop
  | .dispatch _ _ _ c, older => c.state ≠ .closed → AllAnswered E older
  | _, _ => True

/-- The answers `d` are still to come. -/
structure Due (E : Env) (d : List Bytes) (l : Link) : Prop where
  now : l.conn.state ≠ .closed → l.log.any Event.misses = false →
    answersSent l.log ++ d = answersOwed E l.log
  past : Along (AskedInTurn E) l.log

/-- An event that is no answer adds what it owes. -/
theorem Due.records {e : Event} {l' : Link} (h : Due E d l) (hlog : l'.log = e :: l.log)
    (he : e.answers = []) (hturn : AskedInTurn E e l.log)
    (hopen : l'.conn.state ≠ .closed → l.conn.state ≠ .closed) : Due E (d ++ e.owes E) l' := by
  refine ⟨fun hstate hmiss => ?_, hlog ▸ ⟨hturn, h.past⟩⟩
  rw [hlog, List.any_cons, Bool.or_eq_false_iff] at hmiss
  rw [hlog, answersSent_cons, answersOwed_cons, he, List.append_nil, ← List.append_assoc,
    h.now (hopen hstate) hmiss.2]

/-- Nothing is recorded. -/
theorem Due.congr {l' : Link} (h : Due E d l) (hlog : l'.log = l.log)
    (hopen : l'.conn.state ≠ .closed → l.conn.state ≠ .closed) : Due E d l' := by
  refine ⟨fun hstate hmiss => ?_, hlog ▸ h.past⟩
  rw [hlog] at hmiss ⊢
  exact h.now (hopen hstate) hmiss

/-- A connection that is closed owes nothing. -/
theorem Due.closed {d' : List Bytes} (h : Due E d l) (hclosed : l.conn.state = .closed) :
    Due E d' l :=
  ⟨fun hopen => absurd hclosed hopen, h.past⟩

/-! ## Sending -/

theorem Emits.isOpen {s t : Session} {ret : Int} (h : Emits p s ret t)
    (hopen : t.conn.state ≠ .closed) : s.conn.state ≠ .closed := by
  cases h with
  | sent | refused => exact hopen
  | lost => exact absurd rfl hopen

/-- A send of no answer leaves the debt alone. -/
theorem Due.emits {ret : Int} {l' : Link} (h : Due E d l) (hmsg : msgOf p ∉ answerMessages)
    (hemit : Emits p l.toSession ret l'.toSession) : Due E d l' := by
  have hnothing : ∀ e : Event, e.owes E = [] → e.answers = [] → AskedInTurn E e l.log →
      l'.log = e :: l.log → Due E d l' := fun e howes hanswers hturn hlog => by
    have hrecords := h.records hlog hanswers hturn hemit.isOpen
    rwa [howes, List.append_nil] at hrecords
  rcases hemit.log_eq with ⟨-, hlog⟩ | ⟨-, hlog⟩
  · exact hnothing (.sent p l.conn) rfl (if_neg hmsg) trivial hlog
  · exact hnothing (.sendFailed p l'.conn) rfl rfl trivial hlog

/-- The next answer is sent, or it is missed. -/
theorem Due.answered {ret : Int} {l' : Link} (h : Due E (p :: d) l)
    (hmsg : msgOf p ∈ answerMessages) (hemit : Emits p l.toSession ret l'.toSession) :
    Due E d l' ∧ (ret ≠ 0 → ∀ d', Due E d' l') := by
  rcases hemit.log_eq with ⟨hret, hlog⟩ | ⟨hret, hlog⟩
  · refine ⟨⟨fun hstate hall => ?_, hlog ▸ ⟨trivial, h.past⟩⟩, fun hne => absurd hret hne⟩
    rw [hlog, List.any_cons, Bool.or_eq_false_iff] at hall
    rw [hlog, answersSent_cons, answersOwed_cons, Event.answers, if_pos hmsg,
      show (Event.sent p l.conn).owes E = [] from rfl, List.append_nil, List.append_assoc,
      List.singleton_append]
    exact h.now (hemit.isOpen hstate) hall.2
  · have hmissed : ∀ d', Due E d' l' := fun d' => by
      refine ⟨fun _ hall => ?_, hlog ▸ ⟨trivial, h.past⟩⟩
      rw [hlog, List.any_cons, Bool.or_eq_false_iff] at hall
      exact absurd (List.contains_iff_mem.mpr hmsg) (Bool.eq_false_iff.mp hall.1)
    exact ⟨hmissed d, fun _ => hmissed⟩

/-- What a packet asks of the key exchange or of the password callback. -/
inductive Question where
  /-- A key exchange with this public key of the client. -/
  | key (qc : Bytes)
  | password (user pass : Bytes)
  deriving DecidableEq

/-- The question of a `USERAUTH_REQUEST`. -/
def passwordAsked (p : Bytes) : List Question :=
  let user := rStr (rInit (p.drop 1))
  let service := rStr user.rest
  let method := rStr service.rest
  let change := rByte method.rest
  let pass := rStr change.rest
  if offersPassword p = true then
    [.password (cString (user.val.take (userSize - 1))) (cString pass.val)]
  else []

/-- What the packet `p` asks that arrives in `c`. -/
def Conn.asks (c : Conn) (p : Bytes) : List Question :=
  if c.discards p then []
  else if msgOf p = msgKexdhInit then [.key (rStr (rInit (p.drop 1))).val]
  else if msgOf p = msgUserauthRequest ∧ c.state = .auth then passwordAsked p
  else []

def Event.asks : Event → List Question
  | .dispatch p _ _ c => c.asks p
  | _ => []

/-- A run of the key exchange decides for one key, and a call of the callback about one
password. -/
def Event.decides : Event → List Question
  | .exchange x _ => [.key x.qc]
  | .auth user pass _ _ => [.password user pass]
  | _ => []

/-- All that was asked, oldest first. -/
def questionsAsked (log : List Event) : List Question := log.reverse.flatMap Event.asks

def questionsDecided (log : List Event) : List Question := log.reverse.flatMap Event.decides

theorem questionsAsked_cons (e : Event) (log : List Event) :
    questionsAsked (e :: log) = questionsAsked log ++ e.asks := by
  simp [questionsAsked]

theorem questionsDecided_cons (e : Event) (log : List Event) :
    questionsDecided (e :: log) = questionsDecided log ++ e.decides := by
  simp [questionsDecided]

/-- A packet that arrives on an open connection finds all questions decided. -/
def DecidedInTurn : Event → List Event → Prop
  | .dispatch _ _ _ c, older => c.state ≠ .closed → questionsDecided older = questionsAsked older
  | _, _ => True

/-- The questions `q` are still to be decided. -/
structure Undecided (q : List Question) (l : Link) : Prop where
  now : l.conn.state ≠ .closed → questionsDecided l.log ++ q = questionsAsked l.log
  past : Along DecidedInTurn l.log

section Questions

variable {q q' : List Question} {l' : Link} {e : Event}

theorem Undecided.congr (h : Undecided q l) (hlog : l'.log = l.log)
    (hopen : l'.conn.state ≠ .closed → l.conn.state ≠ .closed) : Undecided q l' :=
  ⟨fun hstate => by rw [hlog]; exact h.now (hopen hstate), hlog ▸ h.past⟩

/-- A packet asks when nothing is left undecided. -/
theorem Undecided.dispatched {packet mac : Bytes} {c : Conn} (h : Undecided [] l)
    (hlog : l'.log = .dispatch p packet mac c :: l.log)
    (hopen : c.state ≠ .closed → l.conn.state ≠ .closed)
    (hstate : l'.conn.state ≠ .closed → l.conn.state ≠ .closed) :
    Undecided (c.asks p) l' := by
  have hall : l.conn.state ≠ .closed → questionsDecided l.log = questionsAsked l.log := fun h' => by
    simpa using h.now h'
  refine ⟨fun hopen' => ?_, hlog ▸ ⟨fun hopen' => hall (hopen hopen'), h.past⟩⟩
  rw [hlog, questionsDecided_cons, questionsAsked_cons, hall (hstate hopen')]
  exact congrArg (· ++ c.asks p) (List.append_nil _)

/-- A connection that is closed decides nothing more. -/
theorem Undecided.closed (h : Undecided q l) (hclosed : l.conn.state = .closed) :
    Undecided q' l :=
  ⟨fun hopen => absurd hclosed hopen, h.past⟩

end Questions

/-! ## The result -/

end EfiSshServer
