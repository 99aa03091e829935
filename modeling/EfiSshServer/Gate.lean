import EfiSshServer.Scenario

/-!
# The authentication gate

Nothing of the session channel is reachable before the password callback has
accepted the user the connection is logged in as, and the callback is only asked
once both directions are encrypted.

Three facts carry the argument: the outgoing direction is encrypted when the
server waits for `NEWKEYS`, both directions are when the state is `ST_AUTH` or
`ST_CONN`, and a connection with a channel never returns to a state in which the
user name can change.
-/

namespace EfiSshServer

open StateProgram

variable {E : Env} {p : Bytes} {r : Int} {s t : Session}

/-- Something of the session channel is there. -/
def Session.inUse (s : Session) : Prop :=
  s.conn.state = .conn ∨ s.conn.chan.chanOpen = true ∨ s.conn.chan.shellReady = true ∨
    ringEmpty s.conn = false ∨ Event.accepted ∈ s.log

/-- The callback accepted the user the connection is logged in as. -/
def Session.userAccepted (s : Session) : Prop :=
  ∃ pass c, Event.auth (cString s.conn.login.user) pass true c ∈ s.log

/-- Every call of the password callback was made over two encrypted directions. -/
def EncryptedCalls (log : List Event) : Prop :=
  ∀ user pass ok c, Event.auth user pass ok c ∈ log →
    c.inDir.active = true ∧ c.outDir.active = true

structure Gate (s : Session) : Prop where
  waitNewkeys : s.conn.kex = .waitNewkeys → s.conn.outDir.active = true
  encrypted : s.conn.state = .auth ∨ s.conn.state = .conn →
    s.conn.inDir.active = true ∧ s.conn.outDir.active = true
  loggedIn : s.inUse → s.conn.state = .conn ∨ s.conn.state = .closed
  accepted : s.inUse → s.userAccepted
  calls : EncryptedCalls s.log

theorem not_inUse_new (hostSeed hostPub : Bytes) :
    ¬ Session.inUse ⟨newConn hostSeed hostPub, []⟩ := by
  rintro (h | h | h | h | h)
  · cases h
  · cases h
  · cases h
  · rw [ringEmpty_newConn] at h
    cases h
  · cases h

theorem gate_new (hostSeed hostPub : Bytes) : Gate ⟨newConn hostSeed hostPub, []⟩ where
  waitNewkeys := nofun
  encrypted h := by rcases h with h | h <;> cases h
  loggedIn h := absurd h (not_inUse_new hostSeed hostPub)
  accepted h := absurd h (not_inUse_new hostSeed hostPub)
  calls _ _ _ _ h := by cases h

/-- Sends neither use the channel nor ask the callback. -/
theorem Gate.sends {P : UInt8 → Prop} (h : Sends P s t) (hgate : Gate s) : Gate t := by
  obtain ⟨hstate, hkex, -, hin, hout, hring, -, hchan, hlogin⟩ := h.frame
  have huse : t.inUse → s.inUse := by
    unfold Session.inUse ringEmpty
    rw [hchan, hring, h.mem_iff rfl]
    rintro (hconn | hrest)
    · rcases hstate with heq | heq
      · exact .inl (heq ▸ hconn)
      · rw [heq] at hconn
        cases hconn
    · exact .inr hrest
  have hopen : ∀ st, st ≠ .closed → t.conn.state = st → s.conn.state = st := by
    intro st hne hst
    rcases hstate with heq | heq
    · exact heq ▸ hst
    · exact absurd (heq ▸ hst).symm hne
  refine ⟨?_, ?_, ?_, ?_, ?_⟩
  · rw [hkex, hout]
    exact hgate.waitNewkeys
  · rw [hin, hout]
    exact fun hst => hgate.encrypted (hst.imp (hopen _ (by decide)) (hopen _ (by decide)))
  · intro hinUse
    rcases hstate with heq | heq
    · rw [heq]
      exact hgate.loggedIn (huse hinUse)
    · exact .inr heq
  · intro hinUse
    obtain ⟨pass, c, hmem⟩ := hgate.accepted (huse hinUse)
    refine ⟨pass, c, ?_⟩
    rw [h.mem_iff rfl, hlogin]
    exact hmem
  · intro user pass ok c hmem
    exact hgate.calls user pass ok c ((h.mem_iff rfl).mp hmem)

/-- A step that records nothing about logins and leaves the login, the directions and
what is in use as they are. -/
theorem Gate.congr (hgate : Gate s) (hkex : t.conn.kex = .waitNewkeys → s.conn.kex = .waitNewkeys)
    (hstate : t.conn.state = s.conn.state) (hin : t.conn.inDir.active = s.conn.inDir.active)
    (hout : t.conn.outDir.active = s.conn.outDir.active) (huse : t.inUse → s.inUse)
    (hlogin : t.conn.login = s.conn.login)
    (hlog : ∀ user pass ok c,
      Event.auth user pass ok c ∈ t.log ↔ Event.auth user pass ok c ∈ s.log) : Gate t := by
  refine ⟨?_, ?_, ?_, ?_, ?_⟩
  · rw [hout]
    exact fun h => hgate.waitNewkeys (hkex h)
  · rw [hstate, hin, hout]
    exact hgate.encrypted
  · rw [hstate]
    exact fun h => hgate.loggedIn (huse h)
  · intro h
    obtain ⟨pass, c, hmem⟩ := hgate.accepted (huse h)
    refine ⟨pass, c, ?_⟩
    rw [hlog, hlogin]
    exact hmem
  · exact fun user pass ok c hmem => hgate.calls user pass ok c ((hlog user pass ok c).mp hmem)

/-- A session that is not in use has only its directions to guard. -/
theorem Gate.of_not_inUse (hidle : ¬ s.inUse)
    (hkex : s.conn.kex = .waitNewkeys → s.conn.outDir.active = true)
    (hdirs : s.conn.state = .auth → s.conn.inDir.active = true ∧ s.conn.outDir.active = true)
    (hcalls : EncryptedCalls s.log) : Gate s where
  waitNewkeys := hkex
  encrypted h := h.elim hdirs fun hconn => absurd (.inl hconn) hidle
  loggedIn h := absurd h hidle
  accepted h := absurd h hidle
  calls := hcalls

/-- Outside `ST_CONN` and `ST_CLOSED` nothing is in use. -/
theorem Gate.not_inUse (hgate : Gate s) (hconn : s.conn.state ≠ .conn)
    (hclosed : s.conn.state ≠ .closed) : ¬ s.inUse :=
  fun h => (hgate.loggedIn h).elim hconn hclosed

/-- While the channel is in use by the user the callback accepted, it may be used
some more. -/
theorem Gate.use (hgate : Gate s) (hused : s.inUse) (hconn : t.conn.kex = s.conn.kex)
    (hstate : t.conn.state = s.conn.state) (hin : t.conn.inDir = s.conn.inDir)
    (hout : t.conn.outDir = s.conn.outDir) (hlogin : t.conn.login = s.conn.login)
    (hlog : ∀ user pass ok c,
      Event.auth user pass ok c ∈ t.log ↔ Event.auth user pass ok c ∈ s.log) : Gate t := by
  refine ⟨?_, ?_, fun _ => ?_, fun _ => ?_, ?_⟩
  · rw [hconn, hout]
    exact hgate.waitNewkeys
  · rw [hstate, hin, hout]
    exact hgate.encrypted
  · rw [hstate]
    exact hgate.loggedIn hused
  · obtain ⟨pass, c, hmem⟩ := hgate.accepted hused
    refine ⟨pass, c, ?_⟩
    rw [hlog, hlogin]
    exact hmem
  · exact fun user pass ok c hmem => hgate.calls user pass ok c ((hlog user pass ok c).mp hmem)

/-- A call over the connection as it is adds to the encrypted calls. -/
theorem EncryptedCalls.cons {log : List Event} {user pass : Bytes} {ok : Bool} {c : Conn}
    (hcalls : EncryptedCalls log) (hin : c.inDir.active = true) (hout : c.outDir.active = true) :
    EncryptedCalls (.auth user pass ok c :: log) := by
  intro user' pass' ok' c' hmem
  rcases List.mem_cons.mp hmem with heq | hmem
  · cases heq
    exact ⟨hin, hout⟩
  · exact hcalls user' pass' ok' c' hmem

/-- A rejected password leaves the connection waiting for the next one. -/
theorem Gate.rejected (hgate : Gate s) (hstate : s.conn.state = .auth) (login : Login)
    (user pass : Bytes) :
    Gate ⟨{ s.conn with login := login }, .auth user pass false s.conn :: s.log⟩ := by
  have hidle := hgate.not_inUse (by rw [hstate]; decide) (by rw [hstate]; decide)
  obtain ⟨hin, hout⟩ := hgate.encrypted (.inl hstate)
  refine .of_not_inUse (fun h => hidle ?_) hgate.waitNewkeys (fun _ => ⟨hin, hout⟩)
    (hgate.calls.cons hin hout)
  simpa [Session.inUse, ringEmpty] using h

/-- The client's `NEWKEYS` encrypts the incoming direction; the outgoing one is encrypted
already. -/
theorem Gate.installed (hgate : Gate s) (hkex : s.conn.kex = .waitNewkeys) :
    Gate ⟨s.conn.installed, s.log⟩ := by
  have hout := hgate.waitNewkeys hkex
  by_cases hstate : s.conn.state = .kex
  · have hidle := hgate.not_inUse (by rw [hstate]; decide) (by rw [hstate]; decide)
    refine .of_not_inUse (fun h => hidle ?_) (by simp [Conn.installed]) (fun _ => ⟨rfl, hout⟩)
      hgate.calls
    refine h.elim (fun hconn => ?_) .inr
    simp [Conn.installed, hstate] at hconn
  · simp only [Conn.installed, if_neg hstate]
    refine ⟨by simp, fun _ => ⟨rfl, hout⟩, ?_, ?_, hgate.calls⟩
    · exact hgate.loggedIn
    · exact hgate.accepted

theorem Gate.step (h : Step E s t) (hgate : Gate s) : Gate t := by
  have hsame : ∀ user pass ok c, Event.auth user pass ok c ∈ s.log ↔
    Event.auth user pass ok c ∈ s.log := fun _ _ _ _ => .rfl
  have hkx : ∀ u kx, Gate u → Gate (u.withKx kx) :=
    fun _ _ hu => hu.congr id rfl rfl rfl id rfl fun _ _ _ _ => .rfl
  have harrived : ∀ p packet mac, Gate (s.dispatched p packet mac) := fun p packet mac =>
    hgate.congr id rfl rfl rfl (by simp [Session.dispatched, Session.inUse, ringEmpty]) rfl
      (by simp [Session.dispatched])
  cases h with
  | disconnect h => exact hgate.sends h.sends
  | reply _ _ h | writeLost _ _ h => exact hgate.sends h.sends
  | close => exact hgate.sends (P := fun _ => False) (.close s)
  -- nothing the gate looks at changes
  | decrypt | clientEof | clientClose =>
      exact hgate.congr id rfl rfl rfl id rfl hsame
  | dispatch p packet mac => exact harrived p packet mac
  | skipGuess => exact hkx _ _ (harrived _ _ _)
  | versionSent | adjust | readEnd =>
      exact hgate.congr id rfl rfl rfl (by simp [Session.inUse, ringEmpty]) rfl (by simp)
  | resize cols rows => exact hgate.congr id rfl rfl rfl id rfl hsame
  | writeData _ _ _ _ _ h =>
      exact (hgate.sends h.sends).congr id rfl rfl rfl id rfl fun _ _ _ _ => .rfl
  | startClose _ _ _ _ h =>
      obtain ⟨u, hsends, rfl⟩ := h.sends
      exact (hgate.sends hsends).congr id rfl rfl rfl id rfl fun _ _ _ _ => .rfl
  | closeReply _ _ _ _ h =>
      refine Gate.sends h.sends ?_
      exact hgate.congr id rfl rfl rfl id rfl hsame
  -- the key exchange
  | firstKexInit _ _ _ h => exact h.keeps hkx (fun _ _ h hu => hu.sends h) hgate
  | firstKexInitFailed _ _ h => exact h.keeps hkx (fun _ _ h hu => hu.sends h) hgate
  | kexInit _ _ hend =>
      refine hend.keeps hkx (fun _ _ h hu => hu.sends h) (fun u _ hu => ?_) (harrived _ _ _)
      exact hu.congr (by simp) rfl rfl rfl id rfl fun _ _ _ _ => .rfl
  | acceptVersion line hstate hfits =>
      have hidle := hgate.not_inUse (by rw [hstate]; decide) (by rw [hstate]; decide)
      refine .of_not_inUse (fun h => hidle ?_) (by simp) (by simp) hgate.calls
      exact h.elim (fun hconn => by cases hconn) .inr
  | exchange _ _ hend =>
      refine hend.keeps (fun _ _ h hu => hu.sends h) (fun u derive _ hu => ?_)
        (hgate.congr id rfl rfl rfl (by simp [Session.exchanged, Session.inUse, ringEmpty]) rfl
          (by simp [Session.exchanged]))
      refine ⟨fun _ => rfl, fun hst => ⟨(hu.encrypted hst).1, rfl⟩, ?_, ?_, ?_⟩
      · exact hu.loggedIn
      · exact hu.accepted
      · exact hu.calls
  | newKeys _ _ hend =>
      refine hend.keeps (fun _ _ h hu => hu.sends h) (fun hkex hu => hu.installed hkex)
        (harrived _ _ _)
  | setUser user hstate =>
      have hidle := hgate.not_inUse (by rw [hstate]; decide) (by rw [hstate]; decide)
      exact .of_not_inUse hidle hgate.waitNewkeys (fun _ => hgate.encrypted (.inl hstate))
        hgate.calls
  | authAccepted hq hmsg hstate hform h =>
      refine Gate.sends h.sends ?_
      obtain ⟨hin, hout⟩ := hgate.encrypted (.inl hstate)
      exact ⟨hgate.waitNewkeys, fun _ => ⟨hin, hout⟩, fun _ => .inl rfl,
        fun _ => ⟨_, _, List.mem_cons_self⟩, hgate.calls.cons hin hout⟩
  | authRejected hq hmsg hstate hform htries h => exact (hgate.rejected hstate _ _ _).sends h.sends
  | authExhausted hstate htries h => exact (hgate.rejected hstate _ _ _).sends h.sends
  | openChannel sender window maxPkt hq hmsg hstate hform hopen h =>
      refine Gate.sends h.sends ?_
      exact hgate.use (.inl hstate) rfl rfl rfl rfl rfl (by simp)
  | shell hstate hopen => exact hgate.use (.inl hstate) rfl rfl rfl rfl rfl hsame
  | data d hopen => exact hgate.use (.inr (.inl hopen)) rfl rfl rfl rfl rfl (by simp)
  | accepted hready => exact hgate.use (.inr (.inr (.inl hready))) rfl rfl rfl rfl rfl (by simp)
  | read max hne hcredit =>
      obtain ⟨u, consumed, hsends, rfl⟩ := hcredit.sends
      have hpopped : Gate (s.popped max) :=
        hgate.use (.inr (.inr (.inr (.inl hne)))) rfl rfl rfl rfl rfl (by simp [Session.popped])
      exact (hpopped.sends hsends).congr id rfl rfl rfl id rfl fun _ _ _ _ => .rfl

/-! ## `SshAccept` -/

theorem acceptRounds_ready (rounds start idle : ℕ) (s : Server) :
    wp (acceptRounds E rounds start idle)
      (fun ret t => ret = some 0 → t.link.conn.chan.shellReady = true) (fun _ => True) s := by
  induction rounds generalizing start idle s with
  | zero => exact nofun
  | succ rounds ih =>
      have hfailed : some (-1 : Int) ≠ some 0 := by decide
      unfold acceptRounds
      simp only [wp_bind, ServerM.wp_conn]
      refine wp.ite (fun _ hret => absurd hret hfailed) fun _ => ?_
      simp only [wp_bind]
      refine wp.imp wp.trivial fun out s₁ _ => ?_
      refine wp.ite (fun _ hret => absurd hret hfailed) fun _ => ?_
      simp only [wp_bind, ServerM.wp_conn]
      refine wp.ite (fun hready _ => hready) fun _ => ?_
      refine wp.ite (fun _ => ?_) fun _ => ?_
      · simp only [wp_bind]
        exact wp.imp wp.trivial fun now s₂ _ => ih _ _ s₂
      · simp only [wp_bind]
        refine wp.imp wp.trivial fun late s₂ _ => ?_
        refine wp.ite (fun _ => ?_) fun _ => ih _ _ s₂
        simp only [wp_bind]
        exact wp.imp wp.trivial fun _ _ _ hret => absurd hret hfailed

/-- `SshAccept` returns 0 once a shell was asked for. -/
theorem sshAccept_ready (rounds : ℕ) (s : Server) :
    wp (sshAccept E rounds) (fun ret t => ret = some 0 → t.link.conn.chan.shellReady = true)
      (fun _ => True) s := by
  unfold sshAccept
  simp only [wp_bind]
  refine wp.imp wp.trivial fun now s₁ _ => ?_
  refine wp.imp wp.trivial fun ret s₂ _ => ?_
  refine wp.ite (fun _ hret => absurd hret (by decide)) fun _ => ?_
  exact acceptRounds_ready rounds _ _ s₂

/-- **Authentication gate.**  While the connection is logged in, has a channel, a shell,
input for the shell, or `SshAccept` has returned 0, the callback has accepted the user
it is logged in as; and every call of the callback was made over two encrypted
directions. -/
theorem authentication_gate {s : Server} (h : Reachable E s) :
    (s.link.inUse → s.link.userAccepted) ∧ EncryptedCalls s.link.log ∧
      ∀ rounds t, sshAccept E rounds s = .ok (some 0, t) → t.link.userAccepted := by
  have hgate : ∀ {t : Server}, Reachable E t → Gate t.link.toSession := fun h =>
    h.invariant gate_new fun _ _ => Gate.step
  refine ⟨(hgate h).accepted, (hgate h).calls, fun rounds t haccept => ?_⟩
  have hreach : Reachable E t := h.call (.accept rounds) (bind_ok haccept)
  have hready := (sshAccept_ready rounds s).ok haccept rfl
  exact (hgate hreach).accepted (.inr (.inr (.inl hready)))

/-- A client that logs in and opens a channel passes the gate, and so does one for whose
shell `SshAccept` returns. -/
theorem authentication_gate_login : ∃ s s₀ t, Reachable (plainEnv fun _ _ => true) s ∧
    s.link.inUse ∧ s.link.userAccepted ∧ EncryptedCalls s.link.log ∧
    Reachable (plainEnv fun _ _ => true) s₀ ∧
    sshAccept (plainEnv fun _ _ => true) 1 s₀ = .ok (some 0, t) ∧ t.link.userAccepted := by
  obtain ⟨s, hreach, hopen⟩ := exists_reachable (E := plainEnv fun _ _ => true)
    (P := fun s => s.link.conn.chan.chanOpen = true) [.poll]
    [.data (clientLogin "root" "secret")] (by decide +kernel)
  obtain ⟨haccepted, hcalls, -⟩ := authentication_gate hreach
  have huse : s.link.inUse := .inr (.inl hopen)
  obtain ⟨s₀, hreach₀, hreturns⟩ := exists_reachable (E := plainEnv fun _ _ => true)
    (P := fun s => (sshAccept (plainEnv fun _ _ => true) 1 s).toOption.any
      (fun out => decide (out.1 = some 0)) = true) []
    [.data (clientLogin "root" "secret" ++ sealedFrame (channelRequest "shell"))]
    (by decide +kernel)
  obtain ⟨⟨_, t⟩, haccept, rfl⟩ := exists_ok hreturns
  exact ⟨s, s₀, t, hreach, huse, haccepted huse, hcalls, hreach₀, haccept,
    (authentication_gate hreach₀).2.2 1 t haccept⟩

end EfiSshServer
