import EfiSshServer.Scenario

/-!
# The password-guess bound

`authOutcomes` reads the answers of the password callback off the log, newest
first.  The invariant `AuthBound` says that all of them but the newest are
failures, that `authTries` counts the failures, and that an open connection has
seen fewer than `SSH_MAX_AUTH_TRIES` of them.
-/

namespace EfiSshServer

variable {E : Env} {p : Bytes} {r : Int} {s t : Session}

/-- The answer of the password callback, if this is a call of it. -/
def Event.authOutcome : Event → Option Bool
  | .auth _ _ ok _ => some ok
  | _ => none

/-- The answers of the password callback, newest first. -/
def authOutcomes (log : List Event) : List Bool := log.filterMap Event.authOutcome

/-- The failed calls of the password callback. -/
def failures (log : List Event) : ℕ := (authOutcomes log).count false

structure AuthBound (s : Session) : Prop where
  tries : s.conn.login.authTries = failures s.log
  bound : s.conn.state ≠ .closed → failures s.log < sshMaxAuthTries
  fresh : s.conn.state ≠ .conn → s.conn.state ≠ .closed → true ∉ authOutcomes s.log
  newest : true ∉ (authOutcomes s.log).tail
  length : (authOutcomes s.log).length ≤ sshMaxAuthTries
  grants : s.log.countP (Event.isSent msgUserauthSuccess) ≤ (authOutcomes s.log).count true

theorem authBound_new (hostSeed hostPub : Bytes) : AuthBound ⟨newConn hostSeed hostPub, []⟩ where
  tries := rfl
  bound _ := Nat.zero_lt_succ 4
  fresh _ _ := nofun
  newest := nofun
  length := Nat.zero_le _
  grants := Nat.le_refl _

/-- The invariant reads the state, the counter, the answers and the grants; closing
keeps it. -/
theorem AuthBound.congr (hbound : AuthBound s)
    (hstate : t.conn.state = s.conn.state ∨ t.conn.state = .closed)
    (htries : t.conn.login.authTries = s.conn.login.authTries)
    (houtcomes : authOutcomes t.log = authOutcomes s.log)
    (hgrants : t.log.countP (Event.isSent msgUserauthSuccess) =
      s.log.countP (Event.isSent msgUserauthSuccess)) : AuthBound t := by
  have hopen : t.conn.state ≠ .closed → t.conn.state = s.conn.state :=
    fun h => hstate.resolve_right h
  refine ⟨?_, fun h => ?_, fun h h' => ?_, ?_, ?_, ?_⟩
  · rw [htries, failures, houtcomes]
    exact hbound.tries
  · rw [failures, houtcomes]
    exact hbound.bound (hopen h ▸ h)
  · rw [houtcomes]
    exact hbound.fresh (hopen h' ▸ h) (hopen h' ▸ h')
  · rw [houtcomes]
    exact hbound.newest
  · rw [houtcomes]
    exact hbound.length
  · rw [houtcomes, hgrants]
    exact hbound.grants

/-- Sending anything but `USERAUTH_SUCCESS`. -/
theorem AuthBound.sends {P : UInt8 → Prop} (h : Sends P s t) (hP : ¬ P msgUserauthSuccess)
    (hbound : AuthBound s) : AuthBound t := by
  refine hbound.congr h.frame.state (by rw [h.frame.login]) (h.filterMap ?_) (h.countP_sent hP)
  intro e he _
  cases e <;> first | rfl | cases he

theorem AuthBound.emits (h : Emits p s r t) (hmsg : msgOf p ≠ msgUserauthSuccess)
    (hbound : AuthBound s) : AuthBound t :=
  hbound.sends h.sends hmsg.symm

@[simp] theorem authOutcomes_auth (user pass : Bytes) (ok : Bool) (c : Conn) (log : List Event) :
    authOutcomes (.auth user pass ok c :: log) = ok :: authOutcomes log :=
  rfl

/-- A call in `ST_AUTH`: no call before it has succeeded. -/
theorem AuthBound.asked (hbound : AuthBound s) (hstate : s.conn.state = .auth)
    {user pass : Bytes} {ok : Bool} {c : Conn}
    (htries : t.conn.login.authTries = s.conn.login.authTries + if ok then 0 else 1)
    (hlog : t.log = .auth user pass ok c :: s.log)
    (hopen : t.conn.state ≠ .closed → t.conn.login.authTries < sshMaxAuthTries)
    (hok : ok = true → t.conn.state = .conn) : AuthBound t := by
  have hfresh : true ∉ authOutcomes s.log :=
    hbound.fresh (by rw [hstate]; decide) (by rw [hstate]; decide)
  have hlength : (authOutcomes s.log).length = failures s.log := by
    refine (List.count_eq_length.mpr fun b hb => ?_).symm
    cases b with
    | false => rfl
    | true => exact absurd hb hfresh
  have hlt : failures s.log < sshMaxAuthTries := hbound.bound (by rw [hstate]; decide)
  have hcount : t.conn.login.authTries = failures t.log := by
    rw [htries, hlog, hbound.tries, failures, failures, authOutcomes_auth]
    cases ok <;> simp
  have hgrants : t.log.countP (Event.isSent msgUserauthSuccess) =
      s.log.countP (Event.isSent msgUserauthSuccess) := by
    rw [hlog, List.countP_cons_of_neg (by simp [Event.isSent])]
  refine ⟨hcount, fun h => ?_, fun hconn _ => ?_, ?_, ?_, ?_⟩
  · rw [← hcount]
    exact hopen h
  · rw [hlog, authOutcomes_auth, List.mem_cons, not_or]
    exact ⟨fun h => hconn (hok h.symm), hfresh⟩
  · rw [hlog, authOutcomes_auth, List.tail_cons]
    exact hfresh
  · rw [hlog, authOutcomes_auth, List.length_cons, hlength]
    exact hlt
  · rw [hgrants, hlog, authOutcomes_auth]
    exact hbound.grants.trans (List.count_le_count_cons)

/-- Before the login the state may move on. -/
theorem AuthBound.early (hbound : AuthBound s) (hconn : s.conn.state ≠ .conn)
    (hclosed : s.conn.state ≠ .closed) (hlogin : t.conn.login = s.conn.login)
    (hlog : t.log = s.log) : AuthBound t := by
  refine ⟨?_, fun _ => ?_, fun _ _ => ?_, ?_, ?_, ?_⟩
  · rw [hlogin, hlog]
    exact hbound.tries
  · rw [hlog]
    exact hbound.bound hclosed
  · rw [hlog]
    exact hbound.fresh hconn hclosed
  · rw [hlog]
    exact hbound.newest
  · rw [hlog]
    exact hbound.length
  · rw [hlog]
    exact hbound.grants

/-- An accepted password may be followed by one `USERAUTH_SUCCESS`. -/
theorem AuthBound.granted (hbound : AuthBound s) (hstate : s.conn.state = .auth)
    {user pass : Bytes} {c : Conn}
    (h : Emits authSuccessPayload ⟨{ s.conn with
      login := { s.conn.login with authenticated := true }, state := .conn },
      .auth user pass true c :: s.log⟩ r t) : AuthBound t := by
  have hlt := hbound.bound (by rw [hstate]; decide)
  have hasked : AuthBound ⟨{ s.conn with
      login := { s.conn.login with authenticated := true }, state := .conn },
      .auth user pass true c :: s.log⟩ :=
    hbound.asked hstate rfl rfl (fun _ => hbound.tries ▸ hlt) fun _ => rfl
  have houtcomes : authOutcomes t.log = true :: authOutcomes s.log := by
    rcases h.log_eq with ⟨-, hlog⟩ | ⟨-, hlog⟩ <;> rw [hlog] <;> rfl
  have hgrants : t.log.countP (Event.isSent msgUserauthSuccess) ≤
      s.log.countP (Event.isSent msgUserauthSuccess) + 1 := by
    rcases h.log_eq with ⟨-, hlog⟩ | ⟨-, hlog⟩ <;> rw [hlog] <;>
      simp [Event.isSent]
  have hframe := h.frame
  refine ⟨?_, fun hopen => ?_, fun hconn hclosed => ?_, ?_, ?_, ?_⟩
  · rw [hframe.login, failures, houtcomes]
    exact hasked.tries
  · rw [failures, houtcomes]
    exact hasked.bound (by simp)
  · exact absurd (hframe.state.resolve_right hclosed) hconn
  · rw [houtcomes]
    exact hasked.newest
  · rw [houtcomes]
    exact hasked.length
  · rw [houtcomes, List.count_cons_self]
    exact hgrants.trans (Nat.succ_le_succ hbound.grants)

theorem AuthBound.step (h : Step E s t) (hbound : AuthBound s) : AuthBound t := by
  have hkx : ∀ u kx, AuthBound u → AuthBound (u.withKx kx) :=
    fun _ _ hu => hu.congr (.inl rfl) rfl rfl rfl
  have harrived : ∀ p packet mac, AuthBound (s.dispatched p packet mac) := fun p packet mac =>
    hbound.congr (.inl rfl) rfl rfl (List.countP_cons_of_neg (by simp [Event.isSent]))
  cases h with
  | disconnect h => exact hbound.sends h.sends (by decide)
  | close => exact hbound.congr (.inr rfl) rfl rfl rfl
  | decrypt | clientEof | clientClose | resize | shell | setUser =>
      exact hbound.congr (.inl rfl) rfl rfl rfl
  | dispatch p packet mac => exact harrived p packet mac
  | skipGuess => exact hkx _ _ (harrived _ _ _)
  | versionSent | adjust | readEnd | data | accepted =>
      exact hbound.congr (.inl rfl) rfl rfl (List.countP_cons_of_neg (by simp [Event.isSent]))
  | reply hq hp h =>
      refine hbound.emits h fun heq => ?_
      exact absurd (heq ▸ hp.msg_mem) (by decide)
  | exchange _ _ hend =>
      refine hend.keeps (fun _ _ h hu => hu.sends h (by decide))
        (fun _ _ _ hu => hu.congr (.inl rfl) rfl rfl rfl) ?_
      exact hbound.congr (.inl rfl) rfl rfl (List.countP_cons_of_neg (by simp [Event.isSent]))
  | writeLost _ _ h => exact hbound.emits h (by rw [msgOf_channelDataPayload]; decide)
  | read max _ hcredit =>
      obtain ⟨u, consumed, hsends, rfl⟩ := hcredit.sends
      have hpopped : AuthBound (s.popped max) :=
        hbound.congr (.inl rfl) rfl rfl (List.countP_cons_of_neg (by simp [Event.isSent]))
      exact (hpopped.sends hsends (by decide)).congr (.inl rfl) rfl rfl rfl
  | writeData _ _ _ _ _ h =>
      have hsent := hbound.emits h (by rw [msgOf_channelDataPayload]; decide)
      exact hsent.congr (.inl rfl) rfl rfl rfl
  | startClose _ _ _ _ h =>
      obtain ⟨u, hsends, rfl⟩ := h.sends
      exact (hbound.sends hsends (by decide)).congr (.inl rfl) rfl rfl rfl
  | closeReply _ _ _ _ h =>
      refine AuthBound.emits h (by rw [msgOf_channelReplyPayload]; decide) ?_
      exact hbound.congr (.inl rfl) rfl rfl rfl
  | openChannel _ _ _ _ _ _ _ _ h =>
      refine AuthBound.emits h (by rw [msgOf_openConfirmPayload]; decide) ?_
      exact hbound.congr (.inl rfl) rfl rfl (List.countP_cons_of_neg (by simp [Event.isSent]))
  | firstKexInit _ _ _ h => exact h.keeps hkx (fun _ _ h hu => hu.sends h (by decide)) hbound
  | firstKexInitFailed _ _ h =>
      exact h.keeps hkx (fun _ _ h hu => hu.sends h (by decide)) hbound
  | kexInit _ _ hend =>
      exact hend.keeps hkx (fun _ _ h hu => hu.sends h (by decide))
        (fun _ _ hu => hu.congr (.inl rfl) rfl rfl rfl) (harrived _ _ _)
  -- before the login there is nothing to count
  | acceptVersion line hstate =>
      exact hbound.early (by rw [hstate]; decide) (by rw [hstate]; decide) rfl rfl
  | newKeys _ _ hend =>
      refine hend.keeps (fun _ _ h hu => hu.sends h (by decide)) (fun _ hu => ?_) (harrived _ _ _)
      by_cases hstate : s.conn.state = .kex
      · exact hu.early (by simp [Session.dispatched, hstate]) (by simp [Session.dispatched, hstate])
          rfl rfl
      · exact hu.congr (.inl (if_neg hstate)) rfl rfl rfl
  | authAccepted hq hmsg hstate hform h => exact hbound.granted hstate h
  | authRejected hq hmsg hstate hform htries h =>
      refine AuthBound.emits h (by rw [msgOf_authFailurePayload]; decide) ?_
      exact hbound.asked hstate rfl rfl (fun _ => htries) fun h => absurd h (by decide)
  | @authExhausted pass t hstate htries h =>
      -- the fifth wrong password closes the connection before anything is sent
      have hasked : AuthBound ⟨{ s.conn with
          login := { s.conn.login with authTries := s.conn.login.authTries + 1 },
          state := .closed }, .auth (cString s.conn.login.user) pass false s.conn :: s.log⟩ :=
        hbound.asked hstate rfl rfl (fun hopen => absurd rfl hopen) fun h => absurd h (by decide)
      refine hasked.congr (.inr h.closed) (by rw [h.frame.login]) (h.sends.filterMap ?_)
        (h.sends.countP_sent (by decide))
      intro e he _
      cases e <;> first | rfl | cases he

/-- **Password-guess bound.**  The password callback is called at most
`SSH_MAX_AUTH_TRIES` times; every call but the newest has failed; while the connection
is open `authTries` counts the failed calls and is below the limit, so that the call
that reaches the limit closes the connection; and `USERAUTH_SUCCESS` is sent at most
once. -/
theorem password_guess_bound {s : Server} (h : Reachable E s) :
    (authOutcomes s.link.log).length ≤ sshMaxAuthTries ∧
      true ∉ (authOutcomes s.link.log).tail ∧
      (s.link.conn.state ≠ .closed → s.link.conn.login.authTries = failures s.link.log ∧
        s.link.conn.login.authTries < sshMaxAuthTries) ∧
      (failures s.link.log = sshMaxAuthTries → s.link.conn.state = .closed) ∧
      s.link.log.countP (Event.isSent msgUserauthSuccess) ≤ 1 := by
  have hbound : AuthBound s.link.toSession := h.invariant authBound_new fun _ _ => AuthBound.step
  refine ⟨hbound.length, hbound.newest, fun hopen => ⟨hbound.tries, ?_⟩, fun hlimit => ?_, ?_⟩
  · rw [hbound.tries]
    exact hbound.bound hopen
  · by_contra hopen
    exact absurd (hbound.bound hopen) (Nat.not_lt.mpr hlimit.ge)
  · refine hbound.grants.trans ?_
    have hnewest := hbound.newest
    cases houtcomes : authOutcomes s.link.log with
    | nil => simp
    | cons ok older =>
        rw [houtcomes, List.tail_cons] at hnewest
        rw [List.count_cons, List.count_eq_zero_of_not_mem hnewest]
        split <;> decide

/-- A client that keeps guessing is cut off behind its fifth guess. -/
theorem password_guess_bound_guesses : ∃ s, Reachable (plainEnv fun _ _ => false) s ∧
    failures s.link.log = sshMaxAuthTries ∧ s.link.conn.state = .closed := by
  obtain ⟨s, hreach, hfailures⟩ := exists_reachable (E := plainEnv fun _ _ => false)
    (P := fun s => failures s.link.log = sshMaxAuthTries) [.poll]
    [.data (clientKex ++ sealedFrame serviceRequest ++
      (List.replicate 6 (sealedFrame (passwordRequest "root" "guess"))).flatten)]
    (by decide +kernel)
  obtain ⟨-, -, -, hclosed, -⟩ := password_guess_bound hreach
  exact ⟨s, hreach, hfailures, hclosed hfailures⟩

end EfiSshServer
