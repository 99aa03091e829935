import EfiSshServer.Lib.Resources
import EfiSshServer.Network

/-!
# Events, tokens and child handles

`NetAccept`, `NetWrite` and `NetCloseConn` make events and close them, and destroy the child
handles that the driver delivers.  `Books` is what the log says of them at any moment: which
events are open, which children are held, and that every event so far was closed when it
could be.

* A wait leaves all of that alone (`Waited`), and `waitToken_spec` says in which state it
  leaves its token.
* `SocketInv` holds between calls, and each call keeps it.
-/

namespace EfiSshServer

open StateProgram Resources Requests History Network

variable {fw : TcpFirmware} {s t : Network} {tok u : Token} {st : EfiStatus} {h : EfiHandle}
  {opened : Multiset Token} {children : Multiset EfiHandle} {log : List TcpEvent} {e : TcpEvent}

/-! ## What the log says -/

def socketEventUse : TcpEvent → Option (Use Token)
  | .eventMade tok => some (.acquire tok)
  | .eventClosed tok => some (.release tok)
  | _ => none

/-- A child handle comes from `CreateChild` or with an `Accept`. -/
def childUse : TcpEvent → Option (Use EfiHandle)
  | .childMade h => some (.acquire h)
  | .signaled _ _ (some h) => some (.acquire h)
  | .childDestroyed h => some (.release h)
  | _ => none

def tokenStage : TcpEvent → Option (Token × Stage)
  | .submitted tok _ => some (tok, .submit)
  | .signaled tok _ _ => some (tok, .answer)
  | .cancelled tok => some (tok, .cancel)
  | .timedOut tok => some (tok, .giveUp)
  | .eventClosed tok => some (tok, .retire)
  | .readDone posted => some (.receive, if posted then .submit else .answer)
  | _ => none

/-- The state of a token. -/
abbrev tokenStatus (tok : Token) (log : List TcpEvent) : Status := status tokenStage tok log

/-- The children that came with an `Accept` that had been cancelled already. -/
def leaked : List TcpEvent → Multiset EfiHandle
  | [] => 0
  | .signaled tok _ (some h) :: log =>
      if tokenStatus tok log = .cancelled then h ::ₘ leaked log else leaked log
  | _ :: log => leaked log

/-- The driver does not have the token, or did not answer its `Cancel` in time; nothing
cancels a `Close`. -/
def MayRetire (tok : Token) (status : Status) : Prop :=
  status = .idle ∨ status = .abandoned ∨ tok = .close ∧ status = .overdue

structure Books (opened : Multiset Token) (children : Multiset EfiHandle)
    (log : List TcpEvent) : Prop where
  events : held socketEventUse log = some opened
  children : held childUse log = some (children + leaked log)
  order : Along (RetiredWhen tokenStage MayRetire) log

/-- An event that neither makes nor closes anything. -/
def TcpEvent.isQuiet : TcpEvent → Bool
  | .eventMade _ | .eventClosed _ | .childMade _ | .childDestroyed _ => false
  | .signaled _ _ child => child.isNone
  | _ => true

namespace Books

theorem quiet (hb : Books opened children log) (he : e.isQuiet = true) :
    Books opened children (e :: log) := by
  have hquiet : socketEventUse e = none ∧ childUse e = none ∧ leaked (e :: log) = leaked log ∧
      ∀ tok, tokenStage e ≠ some (tok, .retire) := by
    cases e with
    | signaled tok st child =>
        obtain rfl := Option.isNone_iff_eq_none.mp he
        exact ⟨rfl, rfl, rfl, by simp [tokenStage]⟩
    | readDone posted => cases posted <;> exact ⟨rfl, rfl, rfl, by simp [tokenStage]⟩
    | eventMade | eventClosed | childMade | childDestroyed => cases he
    | _ => exact ⟨rfl, rfl, rfl, by simp [tokenStage]⟩
  obtain ⟨huse, hchild, hleaked, hretire⟩ := hquiet
  refine ⟨(held_of_none huse).trans hb.events, ?_, fun tok htok => absurd htok (hretire tok),
    hb.order⟩
  rw [held_of_none hchild, hleaked]
  exact hb.children

theorem made (hb : Books opened children log) :
    Books (tok ::ₘ opened) children (.eventMade tok :: log) :=
  ⟨held_acquire rfl hb.events, (held_of_none rfl).trans hb.children,
    fun _ htok => by simp [tokenStage] at htok, hb.order⟩

theorem closed (hb : Books (tok ::ₘ opened) children log)
    (hmay : MayRetire tok (tokenStatus tok log)) :
    Books opened children (.eventClosed tok :: log) := by
  refine ⟨held_release rfl hb.events, (held_of_none rfl).trans hb.children, fun u hu => ?_,
    hb.order⟩
  obtain rfl : tok = u := congrArg Prod.fst (Option.some.inj hu)
  exact hmay

theorem childMade (hb : Books opened children log) :
    Books opened (h ::ₘ children) (.childMade h :: log) := by
  refine ⟨(held_of_none rfl).trans hb.events, ?_, fun _ htok => by simp [tokenStage] at htok,
    hb.order⟩
  rw [Multiset.cons_add]
  exact held_acquire rfl hb.children

theorem destroyed (hb : Books opened (h ::ₘ children) log) :
    Books opened children (.childDestroyed h :: log) := by
  refine ⟨(held_of_none rfl).trans hb.events, held_release rfl ?_,
    fun _ htok => by simp [tokenStage] at htok, hb.order⟩
  have hheld := hb.children
  rwa [Multiset.cons_add] at hheld

/-- A child comes with an `Accept`: it is taken over, or leaked. -/
theorem delivered (hb : Books opened children log) :
    Books opened (if tokenStatus tok log = .cancelled then children else h ::ₘ children)
      (.signaled tok st (some h) :: log) := by
  refine ⟨(held_of_none rfl).trans hb.events, ?_, fun _ htok => by simp [tokenStage] at htok,
    hb.order⟩
  have hheld : held childUse (.signaled tok st (some h) :: log) =
      some (h ::ₘ (children + leaked log)) := held_acquire rfl hb.children
  rw [hheld, leaked]
  split
  · rw [Multiset.add_cons]
  · rw [Multiset.cons_add]

end Books

/-! ## Rules -/

section Rules

variable {α : Type} {fault : Empty → Prop}

theorem wp_netRecordEvent {post : PUnit → Network → Prop} (e : TcpEvent) :
    wp (Network.record e) post fault = fun s => post ⟨⟩ { s with events := e :: s.events } :=
  rfl

theorem wp_networkSetConn {post : PUnit → Network → Prop} (f : NetConn → NetConn) :
    wp (Network.setConn f) post fault = fun s => post ⟨⟩ { s with conn := f s.conn } :=
  rfl

theorem wp_onNet {post : α → Network → Prop} (m : NetM α) :
    wp (onNet m) post fault =
      fun s => wp m (fun a net => post a { s with toNet := net }) fault s.toNet := by
  rw [onNet, wp_zoom]

end Rules

/-! ## Waiting -/

/-- Only the posted buffer and the logs change, and of the tokens only `tok`. -/
structure Waited (tok : Token) (s t : Network) : Prop where
  conn : t.conn = { s.conn with rxBuf := t.conn.rxBuf }
  rest : t = { s with toNet := t.toNet, events := t.events }
  books : ∀ {opened children}, Books opened children s.events → Books opened children t.events
  others : ∀ u, u ≠ tok → tokenStatus u t.events = tokenStatus u s.events
  fifo : FifoInv s.toNet → FifoInv t.toNet

theorem Waited.trans {v : Network} (h : Waited tok s t) (h' : Waited tok t v) : Waited tok s v where
  conn := by
    rw [h'.conn, h.conn]
  rest := by
    have hrest := h'.rest
    rw [h.rest] at hrest
    exact hrest
  books hb := h'.books (h.books hb)
  others u hu := (h'.others u hu).trans (h.others u hu)
  fifo hf := h'.fifo (h.fifo hf)

/-- A quiet event that is about no other token. -/
theorem Waited.event (he : e.isQuiet = true)
    (hothers : ∀ u, u ≠ tok → tokenStatus u (e :: s.events) = tokenStatus u s.events) :
    Waited tok s { s with events := e :: s.events } :=
  ⟨rfl, rfl, fun hb => hb.quiet he, hothers, id⟩

/-- The same, where it is about no token at all. -/
theorem Waited.idle_event (he : e.isQuiet = true) (hstage : tokenStage e = none) :
    Waited tok s { s with events := e :: s.events } :=
  .event he fun _ _ => status_of_none hstage

theorem Waited.own_event {x : Stage} (he : e.isQuiet = true)
    (hstage : tokenStage e = some (tok, x)) :
    Waited tok s { s with events := e :: s.events } :=
  .event he fun _ hu => status_of_ne hstage (Ne.symm hu)

theorem poll_waited (tok : Token) : wp (poll fw) (fun _ t => Waited tok s t ∧
    tokenStatus tok t.events = tokenStatus tok s.events) (fun _ => False) s := by
  have hpoll : wp (netPoll (fw.driver s.events)) (fun _ net =>
      (∃ rxBuf log, net = ⟨{ s.conn with rxBuf := rxBuf }, log⟩) ∧
        (FifoInv s.toNet → FifoInv net)) (fun _ => False) s.toNet := by
    refine wp.both ?_ (wp_of_forall (fun _ net hrun hf => ?_) fun e _ => e.elim)
    · unfold netPoll
      simp only [wp_bind, wp_get]
      exact wp.ite (fun _ => ⟨_, _, rfl⟩) fun _ => ⟨s.conn.rxBuf, _, rfl⟩
    · exact ((netPoll_fifo hf).ok hrun).inv
  unfold poll
  simp only [wp_bind, wp_get, wp_onNet, wp_netRecordEvent]
  refine wp.imp hpoll fun _ net h => ?_
  obtain ⟨⟨rxBuf, log, rfl⟩, hfifo⟩ := h
  refine ⟨⟨rfl, rfl, fun hb => hb.quiet rfl, fun u _ => status_of_none rfl, hfifo⟩, ?_⟩
  exact status_of_none rfl

theorem checkEvent_waited (htok : tok ≠ .accept) :
    wp (checkEvent fw tok) (fun out t => Waited tok s t ∧ tokenStatus tok t.events =
      if out.isSome then .idle else tokenStatus tok s.events) (fun _ => False) s := by
  unfold checkEvent
  simp only [wp_bind, wp_get]
  split
  · exact ⟨.idle_event rfl rfl, status_of_none rfl⟩
  · next st _ =>
      simp only [htok, false_and, if_false, wp_bind, wp_netRecordEvent, wp_pure]
      have hanswered : tokenStatus tok (.signaled tok st none :: s.events) =
          (tokenStatus tok s.events).next .answer := status_of_eq rfl
      rw [Status.next_answer] at hanswered
      exact ⟨.own_event rfl rfl, hanswered⟩

/-- After so many spins any limit is exceeded. -/
theorem rtTimedOutAt_late (now : Option EfiTime) (start : UInt64) {spins timeoutMs : UInt64}
    (hlim : timeoutMs.toNat < 2 ^ 32) (hspins : spins.toNat = 40 * timeoutMs.toNat + 1) :
    rtTimedOutAt now start spins 100 timeoutMs = true := by
  have hspun : (spins * 100).toNat = spins.toNat * 100 := by
    rw [UInt64.toNat_mul]
    exact Nat.mod_eq_of_lt (by simp only [UInt64.reduceToNat]; omega)
  have hlimit : (timeoutMs * 1000 * 4).toNat = timeoutMs.toNat * 1000 * 4 := by
    have hmillis : (timeoutMs * 1000).toNat = timeoutMs.toNat * 1000 := by
      rw [UInt64.toNat_mul]
      exact Nat.mod_eq_of_lt (by simp only [UInt64.reduceToNat]; omega)
    rw [UInt64.toNat_mul, hmillis]
    exact Nat.mod_eq_of_lt (by simp only [UInt64.reduceToNat]; omega)
  unfold rtTimedOutAt
  dsimp only
  split
  · rfl
  · rw [decide_eq_true_eq, gt_iff_lt, UInt64.lt_iff_toNat_lt, hspun, hlimit]
    omega

/-- How a wait leaves its token: answered, or given up. -/
def WaitEnds (tok : Token) (s t : Network) (st : EfiStatus) : Prop :=
  tokenStatus tok t.events = .idle ∨
    st = efiTimeout ∧ tokenStatus tok t.events = (tokenStatus tok s.events).next .giveUp

theorem waitRounds_spec (htok : tok ≠ .accept) (start : UInt64) {timeoutMs : UInt64}
    (hlim : timeoutMs.toNat < 2 ^ 32) (rounds : ℕ) (spins : UInt64) (hpos : 0 < rounds)
    (hspins : spins.toNat + rounds = 40 * timeoutMs.toNat + 1) :
    wp (waitRounds fw tok start timeoutMs rounds spins) (fun out t => Waited tok s t ∧
      ∃ st, out = some st ∧ WaitEnds tok s t st) (fun _ => False) s := by
  induction rounds generalizing s spins with
  | zero => cases hpos
  | succ rounds ih =>
      have hnext : (spins + 1).toNat = spins.toNat + 1 := by
        rw [UInt64.toNat_add]
        simp only [UInt64.reduceToNat]
        omega
      simp only [waitRounds, wp_bind]
      refine wp.imp (poll_waited tok) fun _ s₁ h₁ => ?_
      refine wp.imp (checkEvent_waited htok) fun out s₂ h₂ => ?_
      have hwaited := h₁.1.trans h₂.1
      cases out with
      | some st => exact ⟨hwaited, st, rfl, .inl h₂.2⟩
      | none =>
          have hsame : tokenStatus tok s₂.events = tokenStatus tok s.events := h₂.2.trans h₁.2
          have hstalled : Waited tok s { s₂ with events := .stalled :: s₂.events } :=
            hwaited.trans (.idle_event rfl rfl)
          simp only [stall, wp_bind, wp_get, wp_netRecordEvent]
          refine wp.ite (fun _ => ?_) fun hlate => ?_
          -- the driver had its time, so the token is given up
          · simp only [wp_bind, wp_netRecordEvent, wp_pure]
            refine ⟨hstalled.trans (.own_event rfl rfl), _, rfl, .inr ⟨rfl, ?_⟩⟩
            have hend : tokenStatus tok (.timedOut tok :: .stalled :: s₂.events) =
              (tokenStatus tok (.stalled :: s₂.events)).next .giveUp := status_of_eq rfl
            have hstall : tokenStatus tok (.stalled :: s₂.events) = tokenStatus tok s₂.events :=
              status_of_none rfl
            rw [hend, hstall, hsame]
          · -- the clock is late before the rounds run out
            have hmore : 0 < rounds := by
              by_contra hzero
              exact hlate (rtTimedOutAt_late _ _ hlim (by omega))
            refine wp.imp (ih (spins + 1) hmore (by omega)) fun out t h => ?_
            obtain ⟨ht, st, hout, hend⟩ := h
            refine ⟨hstalled.trans ht, st, hout, ?_⟩
            have hstall : tokenStatus tok (.stalled :: s₂.events) = tokenStatus tok s.events :=
              (status_of_none rfl).trans hsame
            unfold WaitEnds at hend ⊢
            rwa [hstall] at hend

theorem waitToken_spec (htok : tok ≠ .accept) {timeoutMs : UInt64}
    (hlim : timeoutMs.toNat < 2 ^ 32) :
    wp (Network.waitToken fw tok timeoutMs) (fun st t => Waited tok s t ∧ WaitEnds tok s t st)
      (fun _ => False) s := by
  unfold Network.waitToken
  simp only [wp_bind, wp_get]
  refine wp.imp (waitRounds_spec htok _ hlim _ 0 (Nat.succ_pos _) (Nat.zero_add _))
    fun out t h => ?_
  obtain ⟨hwaited, st, rfl, hend⟩ := h
  exact ⟨hwaited, hend⟩

/-! ## Between the calls -/

/-- A child handle in a variable, if there is one. -/
def kept (handle : Option EfiHandle) : Multiset EfiHandle := handle.toList

@[simp] theorem kept_none : kept none = 0 := rfl

@[simp] theorem kept_some (h : EfiHandle) : kept (some h) = {h} := rfl

/-- The children that `net.c` has to destroy. -/
def owned (s : Network) : Multiset EfiHandle := kept s.listenHandle + kept s.handle

/-- The event of `RxTok`. -/
def openEvents (s : Network) : Multiset Token := if s.rxEvent then {.receive} else 0

structure SocketInv (s : Network) : Prop where
  books : Books (openEvents s) (owned s) s.events
  tokens : ∀ tok, tokenStatus tok s.events =
    if tok = .receive ∧ s.conn.tcp = true ∧ s.conn.rxPosted = true then .inFlight else .idle
  ended : s.conn.tcp = false → s.rxEvent = false ∧ s.handle = none
  /-- Without its event no `Receive` is posted. -/
  unposted : s.rxEvent = false → s.conn.rxPosted = false ∨ s.conn.tcp = false
  stopped : s.listening = false → s.listenHandle = none
  bound : s.listening = true ∨ s.listenHandle ≠ none ∨ s.handle ≠ none → s.serviceBinding = true
  fifo : s.conn.tcp = true → FifoInv s.toNet

theorem wp_makeEvent {post : EfiStatus → Network → Prop} {fault : Empty → Prop}
    (hfail : ∀ st, efiError st = true → post st { s with events := .refused :: s.events })
    (hmade : ∀ st, efiError st = false →
      post st { s with events := .eventMade tok :: s.events }) :
    wp (makeEvent fw tok) post fault s := by
  simp only [makeEvent, wp_bind, wp_get]
  refine wp.ite (fun h => hfail _ h) fun h => hmade _ (by simpa using h)

theorem wp_submit {post : EfiStatus → Network → Prop} {fault : Empty → Prop} {data : Bytes}
    (hfail : ∀ st, efiError st = true → post st { s with events := .refused :: s.events })
    (htaken : ∀ st, efiError st = false →
      post st { s with events := .submitted tok data :: s.events }) :
    wp (submit fw tok data) post fault s := by
  simp only [submit, wp_bind, wp_get]
  refine wp.ite (fun h => hfail _ h) fun h => htaken _ (by simpa using h)

theorem destroyChild_spec {handle : Option EfiHandle}
    (hbound : handle ≠ none → s.serviceBinding = true)
    (hb : Books opened (kept handle + children) s.events) :
    wp (destroyChild handle) (fun _ t => ∃ events, t = { s with events := events } ∧
      Books opened children events ∧
      ∀ tok, tokenStatus tok events = tokenStatus tok s.events) (fun _ => False) s := by
  cases handle with
  | none =>
      rw [kept_none, Multiset.zero_add] at hb
      exact ⟨s.events, rfl, hb, fun _ => rfl⟩
  | some h =>
      rw [kept_some, Multiset.singleton_add] at hb
      simp only [destroyChild, wp_bind, wp_get]
      refine wp.ite (fun _ => ?_) fun hno => absurd (hbound (Option.some_ne_none h)) hno
      exact ⟨_, rfl, hb.destroyed, fun _ => status_of_none rfl⟩

/-! ## The end of a connection -/

/-- `NetCloseConn` before it closes the event of `RxTok`. -/
structure Ending (s t : Network) : Prop where
  rest : t = { s with toNet := t.toNet, events := t.events }
  books : Books (openEvents s) (owned s) t.events
  receive : MayRetire .receive (tokenStatus .receive t.events)
  unasked : s.conn.rxPosted = false → tokenStatus .receive t.events = .idle
  others : ∀ tok, tok ≠ .receive → tokenStatus tok t.events = .idle

theorem cancelReceive_ending (hs : SocketInv s) (htcp : s.conn.tcp = true) :
    wp (cancelReceive fw) (fun _ t => Ending s t) (fun _ => False) s := by
  have hothers : ∀ tok, tok ≠ .receive → tokenStatus tok s.events = .idle := fun tok htok => by
    rw [hs.tokens, if_neg (fun h => htok h.1)]
  simp only [cancelReceive, wp_bind, wp_get]
  refine wp.ite (fun hposted => ?_) fun hposted => ?_
  · simp only [wp_bind, wp_netRecordEvent, wp_networkSetConn]
    have hcancelled : tokenStatus .receive (.cancelled .receive :: s.events) = .cancelled := by
      have hnext : tokenStatus .receive (.cancelled .receive :: s.events) =
          (tokenStatus .receive s.events).next .cancel := status_of_eq rfl
      rw [hnext, hs.tokens, if_pos ⟨rfl, htcp, hposted⟩]
      rfl
    refine wp.imp (waitToken_spec (by decide) (by decide)) fun st t h => ?_
    obtain ⟨hwaited, hend⟩ := h
    unfold WaitEnds at hend
    rw [hcancelled] at hend
    refine ⟨?_, hwaited.books (hs.books.quiet rfl), ?_, fun hno => ?_, fun tok htok => ?_⟩
    · have hrest := hwaited.rest
      dsimp only
      rw [hrest]
    · exact hend.elim .inl fun h => .inr (.inl h.2)
    · exact absurd hposted (by simp [hno])
    · rw [hwaited.others tok htok, ← hothers tok htok]
      exact status_of_ne rfl (Ne.symm htok)
  · have hidle : tokenStatus .receive s.events = .idle := by
      rw [hs.tokens, if_neg fun h => hposted h.2.2]
    exact ⟨rfl, hs.books, .inl hidle, fun _ => hidle, hothers⟩

theorem Ending.close (h : Ending s t) :
    Ending s { t with conn := { t.conn with closed := true } } :=
  ⟨by rw [h.rest], h.books, h.receive, h.unasked, h.others⟩

/-- The event of the `Close` is closed, at whatever point the wait for it ended. -/
theorem Ending.closeEvent {v : Network} (h : Ending s t)
    (hrest : v = { t with toNet := v.toNet, events := v.events })
    (hbooks : Books (.close ::ₘ openEvents s) (owned s) v.events)
    (hmay : MayRetire .close (tokenStatus .close v.events))
    (hothers : ∀ tok, tok ≠ .close → tokenStatus tok v.events = tokenStatus tok t.events) :
    Ending s { v with events := .eventClosed .close :: v.events } := by
  have hsame : ∀ tok, tok ≠ .close →
      tokenStatus tok (.eventClosed .close :: v.events) = tokenStatus tok t.events := by
    intro tok htok
    calc tokenStatus tok (.eventClosed .close :: v.events) = tokenStatus tok v.events :=
          status_of_ne rfl (Ne.symm htok)
      _ = tokenStatus tok t.events := hothers tok htok
  refine ⟨by rw [hrest, h.rest], hbooks.closed hmay, ?_, ?_, fun tok htok => ?_⟩
  · rw [hsame .receive (by decide)]
    exact h.receive
  · rw [hsame .receive (by decide)]
    exact h.unasked
  · by_cases hclose : tok = .close
    · subst hclose
      calc tokenStatus .close (.eventClosed .close :: v.events) =
            (tokenStatus .close v.events).next .retire := status_of_eq rfl
        _ = .idle := Status.next_retire _
    · rw [hsame tok hclose]
      exact h.others tok htok

theorem closeTcp_ending (h : Ending s t) :
    wp (closeTcp fw) (fun _ v => Ending s v) (fun _ => False) t := by
  have hidle : tokenStatus .close t.events = .idle := h.others .close (by decide)
  simp only [closeTcp, wp_bind, wp_get]
  refine wp.ite (fun _ => ?_) fun _ => h
  simp only [wp_bind]
  refine wp_makeEvent (fun st hst => ?_) fun st hst => ?_
  · rw [hst, if_neg (by decide), wp_networkSetConn]
    -- without an event there is no token to close, and the child goes as it is
    have hrefused : Ending s { t with events := .refused :: t.events } :=
      ⟨by rw [h.rest], h.books.quiet rfl, h.receive, h.unasked, h.others⟩
    exact hrefused.close
  rw [hst, if_pos rfl]
  simp only [wp_bind]
  have hmade : Books (.close ::ₘ openEvents s) (owned s) (.eventMade .close :: t.events) :=
    h.books.made
  refine wp_submit (fun st hst => ?_) fun st hst => ?_
  · rw [hst, if_neg (by decide)]
    have hclosed : Ending s { t with
        events := .eventClosed .close :: .refused :: .eventMade .close :: t.events } :=
      h.closeEvent (v := { t with events := .refused :: .eventMade .close :: t.events }) rfl
        (hmade.quiet rfl) (.inl hidle) fun _ _ => rfl
    exact hclosed.close
  · rw [hst, if_pos rfl]
    -- the driver has the close token until it answers or its time is up
    have hflying : tokenStatus .close (.submitted .close [] :: .eventMade .close :: t.events) =
        .inFlight :=
      calc tokenStatus .close (.submitted .close [] :: .eventMade .close :: t.events) =
            (tokenStatus .close (.eventMade .close :: t.events)).next .submit := status_of_eq rfl
        _ = .inFlight := Status.next_submit _
    simp only [wp_bind]
    refine wp.imp (waitToken_spec (by decide) (by decide)) fun st v hwait => ?_
    obtain ⟨hwaited, hend⟩ := hwait
    unfold WaitEnds at hend
    rw [hflying] at hend
    have hclosed := h.closeEvent hwaited.rest (hwaited.books (hmade.quiet rfl))
      (hend.elim .inl fun h => .inr (.inr ⟨rfl, h.2⟩)) fun tok htok => by
        rw [hwaited.others tok htok]
        exact status_of_ne rfl (Ne.symm htok)
    exact hclosed.close

/-- `NetCloseConn` before it destroys the child. -/
structure Released (s t : Network) : Prop where
  rest : t = { s with toNet := t.toNet, rxEvent := false, events := t.events }
  books : Books 0 (owned s) t.events
  tokens : ∀ tok, tokenStatus tok t.events = .idle

theorem closeRxEvent_released (h : Ending s t)
    (hidle : s.rxEvent = false → tokenStatus .receive t.events = .idle) :
    wp closeRxEvent (fun _ v => Released s v) (fun _ => False) t := by
  have hrx : t.rxEvent = s.rxEvent := by rw [h.rest]
  have hbooks := h.books
  simp only [closeRxEvent, wp_bind, wp_get]
  refine wp.ite (fun hopen => ?_) fun hnone => ?_
  · rw [openEvents, if_pos (hrx.symm.trans hopen)] at hbooks
    refine ⟨by rw [h.rest], hbooks.closed h.receive, fun tok => ?_⟩
    by_cases htok : tok = .receive
    · subst htok
      calc tokenStatus .receive (.eventClosed .receive :: t.events) =
            (tokenStatus .receive t.events).next .retire := status_of_eq rfl
        _ = .idle := Status.next_retire _
    · calc tokenStatus tok (.eventClosed .receive :: t.events) = tokenStatus tok t.events :=
            status_of_ne rfl (Ne.symm htok)
        _ = .idle := h.others tok htok
  · rw [hrx, Bool.not_eq_true] at hnone
    rw [openEvents, if_neg (by simp [hnone])] at hbooks
    refine ⟨?_, hbooks, fun tok => ?_⟩
    · have hrest := h.rest
      rw [← hnone]
      exact hrest
    · by_cases htok : tok = .receive
      · rw [htok]
        exact hidle hnone
      · exact h.others tok htok

/-- The connection is gone, and everything of it is given back. -/
structure Closed (s t : Network) : Prop extends SocketInv t where
  tcp : t.conn.tcp = false
  listening : t.listening = s.listening
  listenHandle : t.listenHandle = s.listenHandle

theorem netCloseConn_spec (hs : SocketInv s) :
    wp (netCloseConn fw) (fun _ t => Closed s t) (fun _ => False) s := by
  simp only [netCloseConn, wp_bind, wp_get]
  refine wp.ite (fun hgone => ⟨hs, hgone, rfl, rfl⟩) fun hopen => ?_
  simp only [wp_bind]
  refine wp.imp (cancelReceive_ending hs (by simpa using hopen)) fun _ s₁ h₁ => ?_
  refine wp.imp (closeTcp_ending h₁) fun _ s₂ h₂ => ?_
  have hunasked : s.rxEvent = false → tokenStatus .receive s₂.events = .idle := fun hnone =>
    h₂.unasked ((hs.unposted hnone).resolve_right hopen)
  refine wp.imp (closeRxEvent_released h₂ hunasked) fun _ s₃ h₃ => ?_
  have hhandle : s₃.handle = s.handle := by rw [h₃.rest]
  have hbound : s₃.serviceBinding = s.serviceBinding := by rw [h₃.rest]
  have hlisten : s₃.listenHandle = s.listenHandle ∧ s₃.listening = s.listening := by
    rw [h₃.rest]
    exact ⟨rfl, rfl⟩
  have hrx : s₃.rxEvent = false := by rw [h₃.rest]
  have hbooks := h₃.books
  rw [owned, Multiset.add_comm] at hbooks
  simp only [wp_get]
  rw [hhandle]
  refine wp.imp (destroyChild_spec (fun h => hbound.trans (hs.bound (.inr (.inr h)))) hbooks)
    fun _ t h => ?_
  obtain ⟨events, rfl, hgiven, htokens⟩ := h
  simp only [wp_networkSetConn, wp_modify]
  refine ⟨⟨?_, fun tok => ?_, fun _ => ⟨hrx, rfl⟩, fun _ => .inr rfl, ?_, ?_, nofun⟩, rfl,
    hlisten.2, hlisten.1⟩
  · rw [openEvents, owned]
    dsimp only
    rw [hrx, hlisten.1, if_neg (by decide), kept_none, Multiset.add_zero]
    exact hgiven
  · rw [if_neg (by simp)]
    exact (htokens tok).trans (h₃.tokens tok)
  · rw [hlisten.1, hlisten.2]
    exact hs.stopped
  · rw [hlisten.1, hlisten.2, hbound]
    exact fun h => hs.bound (h.imp_right fun h => .inl (h.resolve_right (by simp)))

/-! ## The listener -/

/-- Only questions were asked. -/
structure Quietly (s t : Network) : Prop where
  rest : t = { s with events := t.events }
  books : ∀ {opened children}, Books opened children s.events → Books opened children t.events
  tokens : ∀ tok, tokenStatus tok t.events = tokenStatus tok s.events

theorem Quietly.refl (s : Network) : Quietly s s := ⟨rfl, id, fun _ => rfl⟩

theorem Quietly.event (he : e.isQuiet = true) (hstage : tokenStage e = none) :
    Quietly s { s with events := e :: s.events } :=
  ⟨rfl, fun hb => hb.quiet he, fun _ => status_of_none hstage⟩

theorem Quietly.trans {v : Network} (h : Quietly s t) (h' : Quietly t v) : Quietly s v := by
  refine ⟨?_, fun hb => h'.books (h.books hb), fun tok => (h'.tokens tok).trans (h.tokens tok)⟩
  have hrest := h'.rest
  rw [h.rest] at hrest
  exact hrest

theorem SocketInv.quietly (hs : SocketInv s) (h : Quietly s t) : SocketInv t := by
  rw [h.rest]
  exact ⟨h.books hs.books, fun tok => (h.tokens tok).trans (hs.tokens tok), hs.ended, hs.unposted,
    hs.stopped, hs.bound, hs.fifo⟩

theorem localAbortRequested_quietly :
    wp (localAbortRequested fw) (fun _ t => Quietly s t) (fun _ => False) s := by
  simp only [localAbortRequested, wp_bind, wp_get]
  exact wp.ite (fun _ => .refl s) fun _ => .refl s

theorem openProtocol_quietly :
    wp (openProtocol fw) (fun _ t => Quietly s t) (fun _ => False) s :=
  Quietly.event rfl rfl

theorem configureRounds_quietly (tries : ℕ) :
    wp (configureRounds fw tries) (fun _ t => Quietly s t) (fun _ => False) s := by
  induction tries generalizing s with
  | zero => exact .refl s
  | succ tries ih =>
      have hasked : Quietly s { s with events := .refused :: s.events } := .event rfl rfl
      simp only [configureRounds, wp_bind, wp_get, wp_netRecordEvent]
      refine wp.ite (fun _ => hasked) fun _ => ?_
      simp only [wp_bind]
      refine wp.imp localAbortRequested_quietly fun aborted t h => ?_
      have hkeys := hasked.trans h
      refine wp.ite (fun _ => hkeys) fun _ => ?_
      simp only [stall, wp_bind, wp_netRecordEvent]
      exact wp.imp ih fun _ v hv => (hkeys.trans (.event rfl rfl)).trans hv

theorem netListenStop_spec (hs : SocketInv s) :
    wp netListenStop (fun _ t => SocketInv t ∧ t.conn = s.conn ∧ t.rxEvent = s.rxEvent)
      (fun _ => False) s := by
  have hrest : ∀ {v : Network}, Quietly s v → wp (do
      destroyChild (← get).listenHandle
      modify fun s => { s with listening := false, listenHandle := none }) (fun _ t =>
        SocketInv t ∧ t.conn = s.conn ∧ t.rxEvent = s.rxEvent) (fun _ => False) v := by
    intro v hv
    have hinv := hs.quietly hv
    have hbooks := hinv.books
    simp only [wp_bind, wp_get]
    refine wp.imp (destroyChild_spec (fun h => hinv.bound (.inr (.inl h))) hbooks) fun _ t h => ?_
    obtain ⟨events, rfl, hgiven, htokens⟩ := h
    rw [wp_modify]
    refine ⟨⟨?_, fun tok => (htokens tok).trans (hinv.tokens tok), hinv.ended, hinv.unposted,
      fun _ => rfl, fun h => hinv.bound (.inr (.inr (by simpa using h))), hinv.fifo⟩, ?_, ?_⟩
    · rw [owned]
      dsimp only
      rw [kept_none, Multiset.zero_add]
      exact hgiven
    · rw [hv.rest]
    · rw [hv.rest]
  unfold netListenStop
  rw [wp_bind, wp_get]
  refine wp.ite (fun _ => ?_) fun _ => hrest (.refl s)
  rw [wp_bind, wp_netRecordEvent]
  exact hrest (.event rfl rfl)

/-- Starting keeps no child when it fails. -/
theorem netListenStart_spec (hs : SocketInv s) (hstopped : s.listening = false)
    (htcp : s.conn.tcp = false) :
    wp (netListenStart fw) (fun _ t => SocketInv t ∧ t.conn = s.conn) (fun _ => False) s := by
  have hnone := hs.stopped hstopped
  have hended := hs.ended htcp
  -- the invariant only looks at these fields
  have hset : ∀ localIn binding : Bool, SocketInv { s with
      localIn := localIn, serviceBinding := binding, listenHandle := none,
      events := .refused :: s.events } := by
    intro localIn binding
    have hasked := hs.quietly (.event (e := .refused) rfl rfl)
    refine ⟨?_, hasked.tokens, hs.ended, hs.unposted, fun _ => rfl, fun h => ?_, hs.fifo⟩
    · have hbooks := hasked.books
      rw [owned] at hbooks ⊢
      dsimp only at hbooks ⊢
      rwa [hnone] at hbooks
    · rw [hstopped, hended.2] at h
      simp at h
  simp only [netListenStart, wp_bind, wp_modify, wp_get, wp_netRecordEvent]
  refine wp.ite (fun _ => ?_) fun _ => ?_
  · -- no service binding: the handle has not been touched
    simp only [wp_bind, wp_modify, wp_pure]
    have hfailed := hset fw.hasConIn false
    rw [← hnone] at hfailed
    exact ⟨hfailed, trivial⟩
  simp only [wp_bind, wp_modify, wp_get]
  have hready := hset fw.hasConIn true
  refine wp.ite (fun _ => ?_) fun _ => ?_
  · simp only [wp_bind, wp_netRecordEvent, wp_pure]
    exact ⟨hready.quietly (.event rfl rfl), trivial⟩
  generalize (fw.createChild (.refused :: s.events)).2 = h
  simp only [wp_bind, wp_netRecordEvent, wp_modify]
  refine wp.imp openProtocol_quietly fun st t ht => ?_
  -- the listener has its child from here on
  have hbooks : Books (openEvents s) (kept (some h) + kept s.handle) t.events := by
    refine ht.books ?_
    have hmade := hready.books.childMade (h := h)
    rwa [owned, kept_none, Multiset.zero_add, ← Multiset.singleton_add] at hmade
  have htokens : ∀ tok, tokenStatus tok t.events = tokenStatus tok s.events := fun tok =>
    calc tokenStatus tok t.events =
          tokenStatus tok (.childMade h :: .refused :: s.events) := ht.tokens tok
      _ = tokenStatus tok (.refused :: s.events) := status_of_none rfl
      _ = tokenStatus tok s.events := status_of_none rfl
  have hbinding : t.serviceBinding = true := by rw [ht.rest]
  refine wp.ite (fun _ => ?_) fun _ => ?_
  · -- no TCP interface on the child: it is destroyed again
    simp only [wp_bind, wp_modify, wp_pure]
    refine wp.imp (destroyChild_spec (fun _ => hbinding) hbooks) fun _ v hv => ?_
    obtain ⟨events, rfl, hgiven, hsame⟩ := hv
    rw [ht.rest]
    refine ⟨⟨?_, fun tok => ((hsame tok).trans (htokens tok)).trans (hs.tokens tok), hs.ended,
      hs.unposted, fun _ => rfl, fun _ => rfl, hs.fifo⟩, rfl⟩
    rw [owned]
    dsimp only
    rw [kept_none, Multiset.zero_add]
    exact hgiven
  · have hlistening : SocketInv { t with listening := true } := by
      rw [ht.rest]
      exact ⟨hbooks, fun tok => (htokens tok).trans (hs.tokens tok), hs.ended, hs.unposted, nofun,
        fun _ => rfl, hs.fifo⟩
    simp only [wp_bind, wp_modify]
    refine wp.imp (configureRounds_quietly 240) fun st v hv => ?_
    have hinv := hlistening.quietly hv
    have hconn : v.conn = s.conn := by rw [hv.rest, ht.rest]
    refine wp.ite (fun _ => ?_) fun _ => ⟨hinv, hconn⟩
    simp only [wp_bind, wp_pure]
    exact wp.imp (netListenStop_spec hinv) fun _ _ h => ⟨h.1, h.2.1.trans hconn⟩

/-! ## Accepting -/

theorem wp_checkAccept {post : Option EfiStatus → Network → Prop} {fault : Empty → Prop}
    (hno : post none { s with events := .unsignaled .accept :: s.events })
    (hyes : ∀ st child, (efiError st = true → child = none) → post (some st) { s with
      newChild := child, events := .signaled .accept st child :: s.events }) :
    wp (checkEvent fw .accept) post fault s := by
  simp only [checkEvent, wp_bind, wp_get]
  split
  · exact hno
  · exact hyes _ _ fun herror => by simp [herror]

/-- What `NetAccept` does while it waits: it can get a child, and only its token moves. -/
structure Expecting (s t : Network) : Prop where
  rest : t = { s with newChild := t.newChild, events := t.events }
  others : ∀ tok, tok ≠ .accept → tokenStatus tok t.events = tokenStatus tok s.events

theorem Expecting.trans {v : Network} (h : Expecting s t) (h' : Expecting t v) : Expecting s v := by
  refine ⟨?_, fun tok htok => (h'.others tok htok).trans (h.others tok htok)⟩
  have hrest := h'.rest
  rw [h.rest] at hrest
  exact hrest

theorem Quietly.expecting (h : Quietly s t) : Expecting s t :=
  ⟨by rw [h.rest], fun tok _ => h.tokens tok⟩

theorem Expecting.own_event {x : Stage} {c : Option EfiHandle}
    (hstage : tokenStage e = some (.accept, x)) :
    Expecting s { s with newChild := c, events := e :: s.events } :=
  ⟨rfl, fun _ htok => status_of_ne hstage (Ne.symm htok)⟩

theorem tokenStatus_signaled (tok : Token) (st : EfiStatus) (child : Option EfiHandle)
    (log : List TcpEvent) : tokenStatus tok (.signaled tok st child :: log) = .idle :=
  calc tokenStatus tok (.signaled tok st child :: log) =
        (tokenStatus tok log).next .answer := status_of_eq rfl
    _ = .idle := Status.next_answer _

/-- A child that comes now is nobody's. -/
theorem cancelRounds_spec (rounds : ℕ) (hb : Books opened children s.events)
    (hcancelled : tokenStatus .accept s.events = .cancelled) :
    wp (cancelRounds fw rounds) (fun _ t => Expecting s t ∧ Books opened children t.events ∧
      MayRetire .accept (tokenStatus .accept t.events)) (fun _ => False) s := by
  induction rounds generalizing s with
  | zero =>
      refine ⟨.own_event (x := .giveUp) rfl, hb.quiet rfl, .inr (.inl ?_)⟩
      calc tokenStatus .accept (.timedOut .accept :: s.events) =
            (tokenStatus .accept s.events).next .giveUp := status_of_eq rfl
        _ = .abandoned := by rw [hcancelled]; rfl
  | succ rounds ih =>
      have hpolled : Quietly s { s with events := .polled :: s.events } := .event rfl rfl
      simp only [cancelRounds, wp_bind, wp_netRecordEvent]
      refine wp_checkAccept ?_ fun st child hchild => ?_
      · have hstalled := (hpolled.trans (.event (e := .unsignaled .accept) rfl rfl)).trans
          (.event (e := .stalled) rfl rfl)
        simp only [stall, wp_bind, wp_netRecordEvent]
        refine wp.imp (ih (hstalled.books hb) ((hstalled.tokens _).trans hcancelled))
          fun _ t h => ⟨hstalled.expecting.trans h.1, h.2⟩
      · have hexpecting := hpolled.expecting.trans (.own_event (e := .signaled .accept st child)
          (c := child) (x := .answer) rfl)
        refine ⟨hexpecting, ?_, .inl (tokenStatus_signaled _ _ _ _)⟩
        cases child with
        | none => exact (hpolled.books hb).quiet rfl
        | some h =>
            -- a client came too late, and nobody looks at its handle
            have hdelivered : Books opened (if _ then children else h ::ₘ children)
                (.signaled .accept st (some h) :: .polled :: s.events) :=
              (hpolled.books hb).delivered
            rwa [if_pos ((hpolled.tokens _).trans hcancelled)] at hdelivered

/-- The children after the wait: a client that came is in `newChild`. -/
def childrenAfter (out : Awaited) (t : Network) (children : Multiset EfiHandle) :
    Multiset EfiHandle :=
  match out with
  | .completed st => if efiError st then children else kept t.newChild + children
  | _ => children

theorem awaitClient_spec (rounds : ℕ) (hb : Books opened children s.events)
    (hflying : tokenStatus .accept s.events = .inFlight) :
    wp (awaitClient fw rounds) (fun out t => out ≠ .running → Expecting s t ∧
      Books opened (childrenAfter out t children) t.events ∧
      MayRetire .accept (tokenStatus .accept t.events)) (fun _ => False) s := by
  induction rounds generalizing s with
  | zero => exact fun h => absurd rfl h
  | succ rounds ih =>
      have hpolled : Quietly s { s with events := .polled :: s.events } := .event rfl rfl
      simp only [awaitClient, wp_bind, wp_netRecordEvent]
      refine wp_checkAccept ?_ fun st child hchild => ?_
      · have hasked := hpolled.trans (.event (e := .unsignaled .accept) rfl rfl)
        simp only [wp_bind]
        refine wp.imp localAbortRequested_quietly fun aborted t h => ?_
        have hkeys := hasked.trans h
        refine wp.ite (fun _ => ?_) fun _ => ?_
        -- ESC was pressed, or another round
        · have hcancelled : tokenStatus .accept (.cancelled .accept :: t.events) = .cancelled :=
            calc tokenStatus .accept (.cancelled .accept :: t.events) =
                  (tokenStatus .accept t.events).next .cancel := status_of_eq rfl
              _ = .cancelled := by rw [hkeys.tokens, hflying]; rfl
          simp only [wp_bind, wp_netRecordEvent, wp_pure]
          refine wp.imp (cancelRounds_spec 100 ((hkeys.books hb).quiet rfl) hcancelled)
            fun _ v hv _ => ⟨?_, hv.2⟩
          exact (hkeys.expecting.trans (.own_event (x := .cancel) rfl)).trans hv.1
        · have hstalled := hkeys.trans (.event (e := .stalled) rfl rfl)
          simp only [stall, wp_bind, wp_netRecordEvent]
          refine wp.imp (ih (hstalled.books hb) ((hstalled.tokens _).trans hflying))
            fun out v hv hend => ⟨hstalled.expecting.trans (hv hend).1, (hv hend).2⟩
      · rw [wp_pure]
        refine fun _ => ⟨hpolled.expecting.trans (.own_event (x := .answer) rfl), ?_,
          .inl (tokenStatus_signaled _ _ _ _)⟩
        cases child with
        | none =>
            have hsame : childrenAfter (.completed st) { s with
                newChild := none, events := .signaled .accept st none :: .polled :: s.events }
                children = children := by
              rw [childrenAfter, kept_none, Multiset.zero_add, ite_self]
            rw [hsame]
            exact (hpolled.books hb).quiet rfl
        | some h =>
            have hdelivered : Books opened (if _ then children else h ::ₘ children)
                (.signaled .accept st (some h) :: .polled :: s.events) :=
              (hpolled.books hb).delivered
            rw [if_neg (by rw [hpolled.tokens, hflying]; decide)] at hdelivered
            rwa [childrenAfter, if_neg fun herror => by simpa using hchild herror, kept_some,
              Multiset.singleton_add]

/-- The state between two calls: an open connection has its event. -/
structure Resting (s : Network) : Prop extends SocketInv s where
  armed : s.conn.tcp = true → s.rxEvent = true

/-- The child becomes the connection, or is destroyed. -/
theorem takeChild_spec (hb : Books 0 (kept s.newChild + kept s.listenHandle) s.events)
    (hidle : ∀ tok, tokenStatus tok s.events = .idle)
    (hstopped : s.listening = false → s.listenHandle = none) (hbound : s.serviceBinding = true) :
    wp (takeChild fw) (fun _ t => Resting t) (fun _ => False) s := by
  simp only [takeChild, wp_bind, wp_modify]
  refine wp.imp openProtocol_quietly fun st t ht => ?_
  have hbooks := ht.books hb
  have htokens : ∀ tok, tokenStatus tok t.events = .idle := fun tok =>
    (ht.tokens tok).trans (hidle tok)
  have hhandle : t.handle = s.newChild := by rw [ht.rest]
  have hbinding : t.serviceBinding = true := by rw [ht.rest]; exact hbound
  refine wp.ite (fun _ => ?_) fun _ => ?_
  · simp only [wp_bind, wp_get, wp_modify, wp_pure]
    rw [hhandle]
    refine wp.imp (destroyChild_spec (fun _ => hbinding) hbooks) fun _ v hv => ?_
    obtain ⟨events, rfl, hgiven, hsame⟩ := hv
    rw [ht.rest]
    refine ⟨⟨?_, fun tok => ?_, fun _ => ⟨rfl, rfl⟩, fun _ => .inl rfl, hstopped,
      fun _ => hbound, nofun⟩, nofun⟩
    · rw [openEvents, owned]
      dsimp only
      rw [if_neg (by decide), kept_none, Multiset.add_zero]
      exact hgiven
    · rw [if_neg (by simp [acceptedConn])]
      exact (hsame tok).trans (htokens tok)
  simp only [wp_bind, wp_networkSetConn, wp_modify]
  -- a connection, with its event or without
  have hinv : ∀ {v : Network}, v = { t with
      conn := { t.conn with tcp := true }, rxEvent := v.rxEvent, remote := v.remote,
      events := v.events } →
      Books (openEvents v) (kept s.newChild + kept s.listenHandle) v.events →
      (∀ tok, tokenStatus tok v.events = .idle) → SocketInv v := by
    intro v hv hvbooks hvtokens
    have howned : owned v = kept s.newChild + kept s.listenHandle := by
      rw [hv, ht.rest, owned, Multiset.add_comm]
    refine ⟨howned ▸ hvbooks, fun tok => ?_, ?_, ?_, ?_, ?_, ?_⟩
    · rw [hvtokens, hv, ht.rest, if_neg (by simp [acceptedConn])]
    all_goals rw [hv, ht.rest]
    · exact nofun
    · exact fun _ => .inl rfl
    · exact hstopped
    · exact fun _ => hbound
    · exact fun _ => fifoInv_accepted
  refine wp_makeEvent (fun st hst => ?_) fun st hst => ?_
  · -- no event to receive with: `NetCloseConn` takes everything back
    rw [if_pos hst]
    simp only [wp_bind, wp_pure]
    have hrx : openEvents { t with
        conn := { t.conn with tcp := true }, remote := fw.modeData t.events,
        events := .refused :: t.events } = 0 := by
      rw [ht.rest, openEvents, if_neg (by simp)]
    refine wp.imp (netCloseConn_spec (hinv rfl (hrx ▸ hbooks.quiet rfl) htokens)) fun _ v hv => ?_
    exact ⟨hv.toSocketInv, fun htcp => by rw [hv.tcp] at htcp; cases htcp⟩
  · rw [if_neg (by simp [hst])]
    exact ⟨hinv rfl hbooks.made htokens, fun _ => rfl⟩

/-- Without a connection only the log and the listener matter. -/
theorem Resting.of_books (hs : Resting s) (htcp : s.conn.tcp = false)
    (hrest : t = { s with newChild := t.newChild, events := t.events })
    (hb : Books 0 (owned s) t.events) (hidle : ∀ tok, tokenStatus tok t.events = .idle) :
    Resting t := by
  have hnone : openEvents t = 0 := by
    rw [hrest, openEvents, if_neg (by simp [(hs.ended htcp).1])]
  have howned : owned t = owned s := by rw [hrest, owned, owned]
  refine ⟨⟨hnone ▸ howned ▸ hb, fun tok => ?_, ?_, ?_, ?_, ?_, ?_⟩, ?_⟩
  · rw [hidle, hrest, if_neg (by simp [htcp])]
  all_goals rw [hrest]
  · exact hs.ended
  · exact hs.unposted
  · exact hs.stopped
  · exact hs.bound
  · exact hs.fifo
  · exact hs.armed

/-- The event of an `Accept` is closed. -/
theorem tokenStatus_closeAccept {v : Network} (hs : ∀ tok, tokenStatus tok s.events = .idle)
    (hothers : ∀ tok, tok ≠ .accept → tokenStatus tok v.events = tokenStatus tok s.events) :
    ∀ tok, tokenStatus tok (.eventClosed .accept :: v.events) = .idle := by
  intro tok
  by_cases htok : tok = .accept
  · subst htok
    calc tokenStatus .accept (.eventClosed .accept :: v.events) =
          (tokenStatus .accept v.events).next .retire := status_of_eq rfl
      _ = .idle := Status.next_retire _
  · calc tokenStatus tok (.eventClosed .accept :: v.events) = tokenStatus tok v.events :=
          status_of_ne rfl (Ne.symm htok)
      _ = tokenStatus tok s.events := hothers tok htok
      _ = .idle := hs tok

theorem netAccept_spec (hs : Resting s) (hlistening : s.listening = true)
    (htcp : s.conn.tcp = false) (rounds : ℕ) :
    wp (netAccept fw rounds) (fun out t => out ≠ none → Resting t) (fun _ => False) s := by
  have hidle : ∀ tok, tokenStatus tok s.events = .idle := fun tok => by
    rw [hs.tokens, if_neg (by simp [htcp])]
  have hbooks : Books 0 (owned s) s.events := by
    have h := hs.books
    rwa [openEvents, if_neg (by simp [(hs.ended htcp).1])] at h
  simp only [netAccept, wp_bind]
  refine wp_makeEvent (fun st hst => ?_) fun st hst => ?_
  · rw [if_pos hst, wp_pure]
    exact fun _ => hs.of_books htcp rfl (hbooks.quiet rfl) hidle
  rw [if_neg (by simp [hst])]
  simp only [wp_bind]
  have hmade : Books (.accept ::ₘ 0) (owned s) (.eventMade .accept :: s.events) := hbooks.made
  refine wp_submit (fun st hst => ?_) fun st hst => ?_
  · -- the driver did not take the token
    rw [if_pos hst]
    simp only [Network.closeEvent, wp_bind, wp_netRecordEvent, wp_pure]
    exact fun _ => hs.of_books htcp rfl ((hmade.quiet rfl).closed (.inl (hidle .accept)))
      (tokenStatus_closeAccept
        (v := { s with events := .refused :: .eventMade .accept :: s.events })
        hidle fun _ _ => rfl)
  rw [if_neg (by simp [hst])]
  have hflying : tokenStatus .accept (.submitted .accept [] :: .eventMade .accept :: s.events) =
      .inFlight :=
    calc tokenStatus .accept (.submitted .accept [] :: .eventMade .accept :: s.events) =
          (tokenStatus .accept (.eventMade .accept :: s.events)).next .submit := status_of_eq rfl
      _ = .inFlight := Status.next_submit _
  simp only [wp_bind]
  refine wp.imp (awaitClient_spec rounds (hmade.quiet rfl) hflying) fun out t h => ?_
  have hasked : Expecting s { s with
      events := .submitted .accept [] :: .eventMade .accept :: s.events } := by
    refine ⟨rfl, fun tok htok => ?_⟩
    calc tokenStatus tok (.submitted .accept [] :: .eventMade .accept :: s.events) =
          tokenStatus tok (.eventMade .accept :: s.events) := status_of_ne rfl (Ne.symm htok)
      _ = tokenStatus tok s.events := status_of_none rfl
  cases out with
  | running => exact fun h => absurd rfl h
  | aborted =>
      obtain ⟨hexpecting, hheld, hmay⟩ := h (by simp)
      have hall := hasked.trans hexpecting
      simp only [Network.closeEvent, wp_bind, wp_netRecordEvent, wp_pure]
      refine fun _ => hs.of_books htcp ?_ (hheld.closed hmay)
        (tokenStatus_closeAccept hidle hall.others)
      rw [hall.rest]
  | completed st =>
      obtain ⟨hexpecting, hheld, hmay⟩ := h (by simp)
      have hall := hasked.trans hexpecting
      have hclosed := tokenStatus_closeAccept hidle hall.others
      simp only [Network.closeEvent, wp_bind, wp_netRecordEvent]
      refine wp.ite (fun herror => ?_) fun hcame => ?_
      · rw [childrenAfter, if_pos herror] at hheld
        refine fun _ => hs.of_books htcp ?_ (hheld.closed hmay) hclosed
        rw [hall.rest]
      -- from here on the child is the connection's
      have howned : owned s = kept t.listenHandle := by
        rw [owned, (hs.ended htcp).2, kept_none, Multiset.add_zero, hall.rest]
      rw [childrenAfter, if_neg hcame, howned] at hheld
      simp only [wp_bind, wp_pure]
      refine wp.imp (takeChild_spec (hheld.closed hmay) hclosed ?_ ?_) fun _ v hv _ => hv
      · rw [hall.rest]
        exact hs.stopped
      · rw [hall.rest]
        exact hs.bound (.inl hlistening)

/-! ## The callbacks -/

theorem tokenStatus_readDone (posted : Bool) (log : List TcpEvent) :
    tokenStatus .receive (.readDone posted :: log) = if posted then .inFlight else .idle := by
  cases posted with
  | false =>
      calc tokenStatus .receive (.readDone false :: log) =
            (tokenStatus .receive log).next .answer := status_of_eq rfl
        _ = .idle := Status.next_answer _
  | true =>
      calc tokenStatus .receive (.readDone true :: log) =
            (tokenStatus .receive log).next .submit := status_of_eq rfl
        _ = .inFlight := Status.next_submit _

theorem netRead_spec (hs : Resting s) (max : ℕ) :
    wp (Network.netRead fw max) (fun _ t => Resting t) (fun _ => False) s := by
  have hread : wp (EfiSshServer.netRead (fw.driver s.events) max) (fun _ net =>
      net.conn.tcp = s.conn.tcp ∧ (s.conn.tcp = true → FifoInv net)) (fun _ => False) s.toNet := by
    by_cases htcp : s.conn.tcp = true
    · refine wp.imp (netRead_fifo_step (hs.fifo htcp) max) fun _ net h => ?_
      exact ⟨h.inv.tcp.trans htcp.symm, fun _ => h.inv⟩
    · unfold EfiSshServer.netRead
      simp only [wp_bind, wp_get]
      refine wp.ite (fun _ => ⟨rfl, fun h => absurd h htcp⟩) fun h => ?_
      exact absurd (by simpa using h) htcp
  simp only [Network.netRead, wp_bind, wp_get, wp_onNet, wp_netRecordEvent, wp_pure]
  refine wp.imp hread fun _ net h => ?_
  obtain ⟨htcp, hfifo⟩ := h
  refine ⟨⟨hs.books.quiet rfl, fun tok => ?_, fun hno => hs.ended (htcp ▸ hno), fun hno => ?_,
    hs.stopped, hs.bound, fun hopen => hfifo (htcp ▸ hopen)⟩, fun hopen => hs.armed (htcp ▸ hopen)⟩
  · by_cases htok : tok = .receive
    · subst htok
      rw [tokenStatus_readDone]
      simp
    · rw [if_neg fun h => htok h.1]
      calc tokenStatus tok (.readDone (net.conn.tcp && net.conn.rxPosted) :: s.events) =
            tokenStatus tok s.events := status_of_ne rfl (Ne.symm htok)
        _ = .idle := by rw [hs.tokens, if_neg fun h => htok h.1]
  · right
    by_contra hopen
    rw [Bool.not_eq_false] at hopen
    have harmed := hs.armed (htcp ▸ hopen)
    exact absurd harmed (by simp [show s.rxEvent = false from hno])

/-- The wait for a `Transmit` ends when its token may be retired. -/
theorem finishTransmit_spec (hflying : tokenStatus .transmit s.events = .inFlight) :
    wp (Network.finishTransmit fw) (fun _ t => Waited .transmit s t ∧
      MayRetire .transmit (tokenStatus .transmit t.events)) (fun _ => False) s := by
  simp only [Network.finishTransmit, wp_bind]
  refine wp.imp (waitToken_spec (by decide) (by decide)) fun st t h => ?_
  obtain ⟨hwaited, hend⟩ := h
  unfold WaitEnds at hend
  rw [hflying] at hend
  refine wp.ite (fun _ => ?_) fun hnot => ⟨hwaited, .inl (hend.resolve_right fun h => hnot h.1)⟩
  -- the wait gave up: the token is cancelled and waited for once more
  simp only [wp_bind, wp_netRecordEvent, wp_pure]
  refine wp.imp (waitToken_spec (by decide) (by decide)) fun _ v h => ?_
  obtain ⟨hwaited', hend'⟩ := h
  refine ⟨(hwaited.trans (.own_event (x := .cancel) rfl rfl)).trans hwaited', ?_⟩
  have hcancel : tokenStatus .transmit (.cancelled .transmit :: t.events) =
      (tokenStatus .transmit t.events).next .cancel := status_of_eq rfl
  refine hend'.elim .inl fun h => ?_
  rw [h.2, hcancel]
  refine hend.elim (fun h => ?_) fun h => ?_
  · rw [h]
    exact .inl rfl
  · rw [h.2]
    exact .inr (.inl rfl)

/-- The connection can be marked as closed at any time. -/
theorem Resting.close (hs : Resting s) :
    Resting { s with conn := { s.conn with closed := true } } :=
  ⟨⟨hs.books, hs.tokens, hs.ended, hs.unposted, hs.stopped, hs.bound,
    fun hopen => (hs.fifo hopen).close.inv⟩, hs.armed⟩

/-- The event of a `Transmit` is closed once its token may be retired. -/
theorem Resting.closeTransmit (hs : Resting s)
    (hconn : t.conn = { s.conn with rxBuf := t.conn.rxBuf })
    (hrest : t = { s with toNet := t.toNet, events := t.events })
    (hfifo : FifoInv s.toNet → FifoInv t.toNet)
    (hb : Books (.transmit ::ₘ openEvents s) (owned s) t.events)
    (hmay : MayRetire .transmit (tokenStatus .transmit t.events))
    (hothers : ∀ tok, tok ≠ .transmit → tokenStatus tok t.events = tokenStatus tok s.events) :
    Resting { t with events := .eventClosed .transmit :: t.events } := by
  have htcp : t.conn.tcp = s.conn.tcp := by rw [hconn]
  have hposted : t.conn.rxPosted = s.conn.rxPosted := by rw [hconn]
  have hopen : openEvents t = openEvents s := by rw [hrest, openEvents, openEvents]
  have howned : owned t = owned s := by rw [hrest, owned, owned]
  -- of the tokens only the one of the transmission has moved, and it is back
  have htokens : ∀ tok, tokenStatus tok (.eventClosed .transmit :: t.events) =
      tokenStatus tok s.events := by
    intro tok
    by_cases htok : tok = .transmit
    · subst htok
      calc tokenStatus .transmit (.eventClosed .transmit :: t.events) =
            (tokenStatus .transmit t.events).next .retire := status_of_eq rfl
        _ = .idle := Status.next_retire _
        _ = tokenStatus .transmit s.events := by rw [hs.tokens, if_neg (by simp)]
    · calc tokenStatus tok (.eventClosed .transmit :: t.events) = tokenStatus tok t.events :=
            status_of_ne rfl (Ne.symm htok)
        _ = tokenStatus tok s.events := hothers tok htok
  refine ⟨⟨?_, fun tok => ?_, fun hno => ?_, fun hno => ?_, ?_, ?_, fun hyes => ?_⟩, fun hyes => ?_⟩
  · have hclosed := hb.closed hmay
    rwa [← hopen, ← howned] at hclosed
  · rw [htokens, hs.tokens, htcp, hposted]
  · rw [hrest]
    exact hs.ended (htcp ▸ hno)
  · rw [hposted, htcp]
    rw [hrest] at hno
    exact hs.unposted hno
  · rw [hrest]
    exact hs.stopped
  · rw [hrest]
    exact hs.bound
  · exact hfifo (hs.fifo (htcp ▸ hyes))
  · rw [hrest]
    exact hs.armed (htcp ▸ hyes)

theorem transmitChunk_spec (hs : Resting s) (chunk : Bytes) :
    wp (Network.transmitChunk fw chunk) (fun _ t => Resting t) (fun _ => False) s := by
  have hidle : tokenStatus .transmit s.events = .idle := by rw [hs.tokens, if_neg (by simp)]
  simp only [Network.transmitChunk, wp_bind]
  refine wp_makeEvent (fun st hst => ?_) fun st hst => ?_
  · rw [if_pos hst]
    exact ⟨hs.quietly (.event (e := .refused) rfl rfl), hs.armed⟩
  rw [if_neg (by simp [hst])]
  simp only [wp_bind]
  have hmade : Books (.transmit ::ₘ openEvents s) (owned s) (.eventMade .transmit :: s.events) :=
    hs.books.made
  -- the last test, behind the wait if there was one
  have hlast : ∀ (st : EfiStatus) {t : Network},
      Resting { t with events := .eventClosed .transmit :: t.events } → wp (do
        Network.closeEvent .transmit
        if efiError st then
          Network.setConn fun c => { c with closed := true }
          return (-1 : Int)
        return 0) (fun _ t => Resting t) (fun _ => False) t := by
    intro st t ht
    simp only [Network.closeEvent, wp_bind, wp_netRecordEvent]
    refine wp.ite (fun _ => ?_) fun _ => ht
    simp only [wp_bind, wp_networkSetConn, wp_pure]
    exact ht.close
  refine wp_submit (fun st hst => ?_) fun st hst => ?_
  · rw [if_pos hst]
    refine hlast st (t := { s with events := .refused :: .eventMade .transmit :: s.events }) ?_
    exact hs.closeTransmit rfl rfl id (hmade.quiet rfl) (.inl hidle) fun _ _ => rfl
  · rw [if_neg (by simp [hst])]
    have hflying : tokenStatus .transmit
        (.submitted .transmit chunk :: .eventMade .transmit :: s.events) = .inFlight :=
      calc tokenStatus .transmit (.submitted .transmit chunk :: .eventMade .transmit :: s.events) =
            (tokenStatus .transmit (.eventMade .transmit :: s.events)).next .submit :=
              status_of_eq rfl
        _ = .inFlight := Status.next_submit _
    rw [wp_bind]
    refine wp.imp (finishTransmit_spec hflying) fun st t h => hlast st ?_
    obtain ⟨hwaited, hmay⟩ := h
    refine hs.closeTransmit hwaited.conn hwaited.rest hwaited.fifo (hwaited.books (hmade.quiet rfl))
      hmay fun tok htok => ?_
    rw [hwaited.others tok htok]
    exact status_of_ne rfl (Ne.symm htok)

theorem transmitFrom_spec (hs : Resting s) (rounds : ℕ) (buf : Bytes) :
    wp (Network.transmitFrom fw rounds buf) (fun _ t => Resting t) (fun _ => False) s := by
  induction rounds generalizing s buf with
  | zero => exact hs
  | succ rounds ih =>
      cases buf with
      | nil => exact hs
      | cons x buf =>
          simp only [Network.transmitFrom, wp_bind]
          refine wp.imp (transmitChunk_spec hs _) fun ret t ht => ?_
          exact wp.ite (fun _ => ht) fun _ => ih ht _

theorem netWrite_spec (hs : Resting s) (buf : Bytes) :
    wp (Network.netWrite fw buf) (fun _ t => Resting t) (fun _ => False) s := by
  simp only [Network.netWrite, wp_bind, wp_get]
  exact wp.ite (fun _ => hs) fun _ => transmitFrom_spec hs _ _

/-! ## Runs -/

theorem resting_zero : Resting Network.zero where
  books := ⟨rfl, rfl, trivial⟩
  tokens tok := by
    rw [if_neg (by simp [Network.zero])]
    rfl
  ended _ := ⟨rfl, rfl⟩
  unposted _ := .inl rfl
  stopped _ := rfl
  bound h := by simp [Network.zero] at h
  fifo := nofun
  armed := nofun

theorem socketCall_resting (hs : Resting s) {call : SocketCall} (horder : call.InOrder s) :
    wp (socketCall fw call) (fun done t => done = true → Resting t) (fun _ => False) s := by
  cases call with
  | listenStart =>
      obtain ⟨hstopped, htcp⟩ := horder
      simp only [socketCall, wp_bind, wp_pure]
      refine wp.imp (netListenStart_spec hs.toSocketInv hstopped htcp) fun _ t h _ => ?_
      exact ⟨h.1, fun hopen => by rw [h.2, htcp] at hopen; cases hopen⟩
  | accept rounds =>
      obtain ⟨hlistening, htcp⟩ := horder
      simp only [socketCall, wp_bind, wp_pure]
      exact wp.imp (netAccept_spec hs hlistening htcp rounds) fun out t h hdone =>
        h (Option.isSome_iff_ne_none.mp hdone)
  | read max =>
      simp only [socketCall, wp_bind, wp_pure]
      exact wp.imp (netRead_spec hs max) fun _ _ h _ => h
  | write buf =>
      simp only [socketCall, wp_bind, wp_pure]
      exact wp.imp (netWrite_spec hs buf) fun _ _ h _ => h
  | closeConn =>
      simp only [socketCall, wp_bind, wp_pure]
      refine wp.imp (netCloseConn_spec hs.toSocketInv) fun _ t h _ => ⟨h.toSocketInv, ?_⟩
      exact fun hopen => by rw [h.tcp] at hopen; cases hopen
  | listenStop =>
      simp only [socketCall, wp_bind, wp_pure]
      refine wp.imp (netListenStop_spec hs.toSocketInv) fun _ t h _ => ⟨h.1, fun hopen => ?_⟩
      rw [h.2.2]
      exact hs.armed (h.2.1 ▸ hopen)

theorem SocketRuns.resting (h : SocketRuns fw s) : Resting s := by
  induction h with
  | start => exact resting_zero
  | call _ call horder hrun ih => exact (socketCall_resting ih horder).ok hrun rfl

/-- Events made and closed, in numbers. -/
theorem Books.count_made (hb : Books opened children log) (tok : Token) :
    log.count (.eventMade tok) = log.count (.eventClosed tok) + opened.count tok := by
  have hbalance := held_balance hb.events tok
  have hmade : (fun e : TcpEvent => decide (socketEventUse e = some (.acquire tok))) =
      (· == .eventMade tok) := by
    funext e
    rw [Bool.eq_iff_iff]
    cases e <;> simp [socketEventUse]
  have hclosed : (fun e : TcpEvent => decide (socketEventUse e = some (.release tok))) =
      (· == .eventClosed tok) := by
    funext e
    rw [Bool.eq_iff_iff]
    cases e <;> simp [socketEventUse]
  rwa [hmade, hclosed] at hbalance

/-- **Everything is given back.**  Whatever the driver and the firmware answer, between two
calls of `net.c` every event was closed as often as it was made, but for that of an open
connection; the children not destroyed are those of the listener and of the connection, and
those that came with an `Accept` when it had been cancelled; and no event was closed while
the driver had its token, unless it had not answered in time.  Of the receive token `RxPosted`
says whether the driver has it, so `NetCloseConn` cancels it exactly then. -/
theorem sockets_accounted (h : SocketRuns fw s) :
    (∀ tok, s.events.count (.eventMade tok) = s.events.count (.eventClosed tok) +
      if tok = .receive ∧ s.conn.tcp = true then 1 else 0) ∧
    held childUse s.events = some (kept s.listenHandle + kept s.handle + leaked s.events) ∧
    (s.conn.tcp = false → s.handle = none) ∧
    (∀ newer tok older, s.events = newer ++ .eventClosed tok :: older →
      MayRetire tok (tokenStatus tok older)) ∧
    (s.conn.tcp = true → outstanding s.log = s.conn.rxPosted ∧
      bytesReturned s.log ++ s.conn.unread = bytesReceived s.log) := by
  have hs := h.resting
  refine ⟨fun tok => ?_, hs.books.children, fun hno => (hs.ended hno).2,
    fun newer tok older hlog => along_iff.mp hs.books.order newer _ older hlog tok rfl,
    fun hopen => ⟨(hs.fifo hopen).posted, (hs.fifo hopen).fifo⟩⟩
  rw [hs.books.count_made, openEvents]
  congr 1
  cases htcp : s.conn.tcp with
  | false => simp [(hs.ended htcp).1]
  | true =>
      rw [hs.armed htcp, if_pos rfl]
      by_cases htok : tok = .receive
      · rw [htok, if_pos ⟨rfl, rfl⟩]
        rfl
      · rw [if_neg fun h => htok h.1, Multiset.count_eq_zero]
        simpa using htok

/-! ## A scenario -/

/-- The calls one after the other, as long as they are in order and return. -/
def runSockets (fw : TcpFirmware) : List SocketCall → Network → Option Network
  | [], s => some s
  | call :: calls, s =>
      if call.InOrder s then
        match socketCall fw call s with
        | .ok (true, t) => runSockets fw calls t
        | _ => none
      else none

theorem runSockets_runs {calls : List SocketCall} (hs : SocketRuns fw s)
    (hrun : runSockets fw calls s = some t) : SocketRuns fw t := by
  induction calls generalizing s with
  | nil =>
      cases hrun
      exact hs
  | cons call calls ih =>
      rw [runSockets] at hrun
      split at hrun
      · next horder =>
          split at hrun
          · next v hcall => exact ih (hs.call call horder hcall) hrun
          · cases hrun
      · cases hrun

/-- A driver that answers at once, but for the second `Accept`: that one delivers its child
when somebody has pressed a key and it is cancelled. -/
def lateFirmware : TcpFirmware where
  driver _ := {
    receive := fun _ => efiSuccess
    poll := fun _ => acceptedConn.rxBuf
    check := fun _ => none
    makeEvent := fun _ => efiSuccess
    transmit := fun _ => efiSuccess
    wait := fun _ => efiSuccess }
  locateProtocol _ := efiSuccess
  createChild _ := (efiSuccess, 1)
  openProtocol _ := efiSuccess
  configure _ := efiSuccess
  createEvent _ := efiSuccess
  submit _ _ := efiSuccess
  checkEvent tok log :=
    if tok = .accept ∧ log.count (.eventMade .accept) = 2 ∧ .cancelled .accept ∉ log then none
    else some efiSuccess
  newChild log := if log.count (.eventMade .accept) = 2 then 3 else 2
  modeData _ := some (0, 0)
  localKeys _ := [⟨scanEsc, 0⟩]
  hasConIn := true
  getTime _ := none

theorem sockets_accounted_late : ∃ s, SocketRuns lateFirmware s ∧
    s.events.count (.eventMade .transmit) = s.events.count (.eventClosed .transmit) ∧
    held childUse s.events = some {3} := by
  have htest : (runSockets lateFirmware [.listenStart, .accept 1, .read 1, .write [1, 2],
      .closeConn, .accept 1, .listenStop] Network.zero).any (fun s => decide (s.conn.tcp = false ∧
        s.listenHandle = none ∧ leaked s.events = {3})) = true := by decide +kernel
  obtain ⟨s, hend, htest⟩ := (Option.any_eq_true _ _).mp htest
  obtain ⟨htcp, hlisten, hleaked⟩ := of_decide_eq_true htest
  have hruns := runSockets_runs .start hend
  obtain ⟨hcount, hheld, hgone, -⟩ := sockets_accounted hruns
  refine ⟨s, hruns, ?_, ?_⟩
  · have htransmit := hcount .transmit
    rwa [if_neg (by simp), Nat.add_zero] at htransmit
  · rw [hheld, hlisten, hgone htcp, hleaked]
    rfl

end EfiSshServer
