import EfiSshServer.Reading
import EfiSshServer.Scenario

/-!
# Who may log in

`CheckPassword` of `SshShellServer.c` is the password callback: it compares the user
and the password with those of the configuration, in a loop whose length depends on
the client's string alone.

`HandleUserauth` hands it C strings.  A name longer than the field it is copied to is
cut off, and what follows a NUL in a name or a password is not compared at all.
`Padded` are the requests that profit from this; `exact_credentials_iff` says that for
all others the server grants `ST_CONN` to the configured user and password and to
nobody else.
-/

namespace EfiSshServer

open StateProgram LinkM

variable {E : Env} {l : Link} {s t : Session} {user pass rest : Bytes} {r : Int}

/-! ## `ConstantTimeEq` and `CheckPassword` -/

/-- The differences of two C strings, or-ed together. -/
def stringDiff (a b : Bytes) : UInt8 :=
  (List.range a.length).foldl
    (fun diff i => diff ||| (a.getD i 0 ^^^ b.getD (i % if b.length ≠ 0 then b.length else 1) 0))
    (if a.length ≠ b.length then 1 else 0)

def constantTimeEq (a b : Bytes) : Bool := stringDiff a b = 0

/-- Differences that are or-ed together are zero when all of them are. -/
theorem foldl_or_eq_zero_iff (f : ℕ → UInt8) (is : List ℕ) (diff : UInt8) :
    is.foldl (fun diff i => diff ||| f i) diff = 0 ↔ diff = 0 ∧ ∀ i ∈ is, f i = 0 := by
  induction is generalizing diff with
  | nil => simp
  | cons i is ih =>
      rw [List.foldl_cons, ih, UInt8.or_eq_zero_iff, List.forall_mem_cons, and_assoc]

theorem constantTimeEq_iff {a b : Bytes} : constantTimeEq a b = true ↔ a = b := by
  rw [constantTimeEq, decide_eq_true_iff, stringDiff, foldl_or_eq_zero_iff]
  constructor
  · rintro ⟨hdiff, heach⟩
    have hlength : a.length = b.length := by
      by_contra hne
      rw [if_pos hne] at hdiff
      cases hdiff
    refine List.ext_getElem hlength fun i hi hi' => ?_
    have hbyte := heach i (List.mem_range.mpr hi)
    rwa [if_pos (by omega), Nat.mod_eq_of_lt hi', List.getD_eq_getElem _ _ hi,
      List.getD_eq_getElem _ _ hi', UInt8.xor_eq_zero_iff] at hbyte
  · rintro rfl
    refine ⟨by simp, fun i hi => ?_⟩
    have hi := List.mem_range.mp hi
    rw [if_pos (by omega), Nat.mod_eq_of_lt hi, UInt8.xor_self]

/-- `mCfg.User` and `mCfg.Pass`, two C strings in their arrays. -/
structure ServerCfg where
  user : Bytes
  pass : Bytes
  length_user : user.length ≤ 63
  length_pass : pass.length ≤ 127
  user_terminated : 0 ∉ user
  pass_terminated : 0 ∉ pass

def ServerCfg.checkPassword (cfg : ServerCfg) (user pass : Bytes) : Bool :=
  constantTimeEq user cfg.user && constantTimeEq pass cfg.pass

theorem ServerCfg.checkPassword_iff {cfg : ServerCfg} :
    cfg.checkPassword user pass = true ↔ user = cfg.user ∧ pass = cfg.pass := by
  rw [checkPassword, Bool.and_eq_true, constantTimeEq_iff, constantTimeEq_iff]

/-! ## What the callback sees -/

/-- The C string in front of a buffer that holds `x` behind its first bytes. -/
theorem cString_eq_iff {x y : Bytes} (hx : 0 ∉ x) :
    cString y = x ↔ ∃ rest, y = x ++ rest ∧ (rest = [] ∨ rest.head? = some 0) := by
  constructor
  · intro h
    refine ⟨y.dropWhile (· ≠ 0), ?_, ?_⟩
    · conv_lhs => rw [← List.takeWhile_append_dropWhile (p := (· ≠ 0)) (l := y)]
      rw [← h, cString]
    · cases hrest : y.dropWhile (· ≠ 0) with
      | nil => exact .inl rfl
      | cons b bs =>
          have hb := List.head_dropWhile_not (· ≠ 0) (l := y)
            (by rw [hrest]; exact List.cons_ne_nil _ _)
          simp only [hrest, List.head_cons] at hb
          exact .inr (by simpa using hb)
  · have hkeep : ∀ b ∈ x, decide (b ≠ 0) = true := fun b hb => by
      simpa using fun h : b = 0 => hx (h ▸ hb)
    rintro ⟨rest, rfl, hrest⟩
    rw [cString, List.takeWhile_append_of_pos hkeep]
    rcases hrest with rfl | hrest
    · simp
    · obtain ⟨bs, rfl⟩ := List.head?_eq_some_iff.mp hrest
      simp

/-- The name as it is stored: cut off, and up to its first NUL. -/
theorem storedUser_eq_iff {cfg : ServerCfg} :
    cString (user.take (userSize - 1)) = cfg.user ↔
      ∃ rest, user = cfg.user ++ rest ∧
        (rest = [] ∨ rest.head? = some 0 ∨ cfg.user.length = 63) := by
  rw [cString_eq_iff cfg.user_terminated]
  constructor
  · rintro ⟨rest, htake, hrest⟩
    refine ⟨rest ++ user.drop (userSize - 1), ?_, ?_⟩
    · rw [← List.append_assoc, ← htake, List.take_append_drop]
    · rcases hrest with rfl | hrest
      · by_cases hshort : user.length ≤ userSize - 1
        · exact .inl (by rw [List.drop_of_length_le hshort]; rfl)
        · refine .inr (.inr ?_)
          have hlength := congrArg List.length htake
          rw [List.length_take, List.append_nil] at hlength
          simp only [userSize] at hlength hshort
          omega
      · obtain ⟨bs, rfl⟩ := List.head?_eq_some_iff.mp hrest
        exact .inr (.inl rfl)
  · rintro ⟨rest, rfl, hrest⟩
    refine ⟨rest.take (userSize - 1 - cfg.user.length), ?_, ?_⟩
    · rw [List.take_append, List.take_of_length_le (show _ ≤ userSize - 1 from cfg.length_user)]
    · by_cases hfull : cfg.user.length = 63
      · rw [hfull]
        exact .inl rfl
      · rcases hrest with rfl | hrest | h
        · exact .inl (List.take_nil)
        · obtain ⟨bs, rfl⟩ := List.head?_eq_some_iff.mp hrest
          have hle := cfg.length_user
          have hroom : userSize - 1 - cfg.user.length = (62 - cfg.user.length) + 1 := by
            simp only [userSize]
            omega
          rw [hroom, List.take_succ_cons]
          exact .inr rfl
        · exact absurd h hfull

/-! ## Granting -/

/-- The connection is in `ST_CONN`, unless the transport failed under its
`USERAUTH_SUCCESS`. -/
def Granted (t : Session) : Prop :=
  t.conn.state = .conn ∨
    (t.conn.state = .closed ∧ ∃ c, t.log.head? = some (.sendFailed authSuccessPayload c))

theorem Emits.granted (h : Emits authSuccessPayload s r t) (hs : s.conn.state = .conn) :
    Granted t := by
  cases h with
  | sent | refused => exact .inl hs
  | lost => exact .inr ⟨rfl, _, rfl⟩

theorem Emits.not_granted {p : Bytes} (h : Emits p s r t) (hs : s.conn.state ≠ .conn)
    (hp : msgOf p ≠ msgUserauthSuccess) : ¬ Granted t := by
  rintro (hconn | ⟨-, c, hhead⟩)
  · rcases h.frame.state with hstate | hstate
    · exact hs (hstate.symm.trans hconn)
    · rw [hstate] at hconn
      cases hconn
  · rcases h.log_eq with ⟨-, hlog⟩ | ⟨-, hlog⟩
    · rw [hlog] at hhead
      cases hhead
    · rw [hlog] at hhead
      cases hhead
      exact hp (by simp)

theorem Farewell.not_granted (h : Farewell s t) (hopen : s.conn.state ≠ .closed) :
    ¬ Granted t := by
  cases h with
  | already hclosed => exact absurd hclosed hopen
  | sent _ h =>
      rintro (hconn | ⟨-, c, hhead⟩)
      · cases hconn
      · rcases h.log_eq with ⟨-, hlog⟩ | ⟨-, hlog⟩
        · rw [hlog] at hhead
          cases hhead
        · rw [hlog] at hhead
          simp only [List.head?_cons, Option.some.injEq, Event.sendFailed.injEq] at hhead
          have hmsg := congrArg msgOf hhead.1
          rw [msgOf_disconnectPayload] at hmsg
          exact absurd hmsg (by decide)

/-- A `USERAUTH_REQUEST` for `ssh-connection` with a password that is not to be changed. -/
def userauthRequest (user pass rest : Bytes) : Bytes :=
  msgUserauthRequest :: (hashStr user ++ (hashStr (ascii "ssh-connection") ++
    (hashStr (ascii "password") ++ (0 :: (hashStr pass ++ rest)))))

/-- The configured user and password with something behind one of them that is not
looked at. -/
def Padded (cfg : ServerCfg) (user pass : Bytes) : Prop :=
  ∃ r₁ r₂, user = cfg.user ++ r₁ ∧ pass = cfg.pass ++ r₂ ∧ (r₁ ≠ [] ∨ r₂ ≠ []) ∧
    (r₁ = [] ∨ r₁.head? = some 0 ∨ cfg.user.length = 63) ∧ (r₂ = [] ∨ r₂.head? = some 0) ∧
    pass.length < pwSize

/-- Whom the callback accepts. -/
def Accepts (cfg : ServerCfg) (user pass : Bytes) : Prop :=
  pass.length < pwSize ∧
    cfg.checkPassword (cString (user.take (userSize - 1))) (cString pass) = true

instance (cfg : ServerCfg) (user pass : Bytes) : Decidable (Accepts cfg user pass) :=
  inferInstanceAs (Decidable (_ ∧ _))

theorem accepts_iff {cfg : ServerCfg} :
    (Accepts cfg user pass ↔ user = cfg.user ∧ pass = cfg.pass) ↔ ¬ Padded cfg user pass := by
  have hexact : user = cfg.user ∧ pass = cfg.pass → Accepts cfg user pass := by
    rintro ⟨rfl, rfl⟩
    refine ⟨cfg.length_pass.trans_lt (by decide), ServerCfg.checkPassword_iff.mpr ⟨?_, ?_⟩⟩
    · exact storedUser_eq_iff.mpr ⟨[], by simp, .inl rfl⟩
    · exact (cString_eq_iff cfg.pass_terminated).mpr ⟨[], by simp, .inl rfl⟩
  have hseen : Accepts cfg user pass ↔
      (user = cfg.user ∧ pass = cfg.pass) ∨ Padded cfg user pass := by
    constructor
    · rintro ⟨hlength, hcheck⟩
      obtain ⟨huser, hpass⟩ := ServerCfg.checkPassword_iff.mp hcheck
      obtain ⟨r₁, hr₁, h₁⟩ := storedUser_eq_iff.mp huser
      obtain ⟨r₂, hr₂, h₂⟩ := (cString_eq_iff cfg.pass_terminated).mp hpass
      by_cases hnil : r₁ = [] ∧ r₂ = []
      · exact .inl ⟨by rw [hr₁, hnil.1, List.append_nil], by rw [hr₂, hnil.2, List.append_nil]⟩
      · exact .inr ⟨r₁, r₂, hr₁, hr₂, not_and_or.mp hnil, h₁, h₂, hlength⟩
    · rintro (h | ⟨r₁, r₂, hr₁, hr₂, -, h₁, h₂, hlength⟩)
      · exact hexact h
      · refine ⟨hlength, ServerCfg.checkPassword_iff.mpr ⟨?_, ?_⟩⟩
        · exact storedUser_eq_iff.mpr ⟨r₁, hr₁, h₁⟩
        · exact (cString_eq_iff cfg.pass_terminated).mpr ⟨r₂, hr₂, h₂⟩
  have hapart : Padded cfg user pass → ¬ (user = cfg.user ∧ pass = cfg.pass) := by
    rintro ⟨r₁, r₂, rfl, rfl, hne, -⟩ ⟨huser, hpass⟩
    rcases hne with hne | hne
    · exact hne (List.append_cancel_left (huser.trans (List.append_nil _).symm))
    · exact hne (List.append_cancel_left (hpass.trans (List.append_nil _).symm))
  rw [hseen]
  constructor
  · exact fun h hpadded => hapart hpadded (h.mp (.inr hpadded))
  · exact fun h => ⟨fun hor => hor.resolve_right h, .inl⟩

theorem checkPassword_granted {cfg : ServerCfg} (hauth : ∀ calls, E.auth calls = cfg.checkPassword)
    (hstate : l.conn.state = .auth) (fault : Fault → Prop) :
    wp (checkPassword E pass) (fun _ l' => Granted l'.toSession ↔
      cfg.checkPassword (cString l.conn.login.user) (cString pass) = true) fault l := by
  simp only [checkPassword, callAuth, wp_bind, wp_conn, wp_ask, wp_record, wp_pure, wp_ite,
    wp_update, hauth]
  refine ⟨fun hok => ?_, fun hok => ⟨fun _ => ?_, fun _ => ?_⟩⟩
  · exact (sendPacket_emits E _ _ fault).imp fun _ _ h => iff_of_true (h.granted rfl) hok
  · refine (fail_farewell _ _).imp fun _ _ h => iff_of_false (h.2.not_granted ?_) hok
    simp [hstate]
  · refine (sendPacket_emits E _ _ fault).imp fun _ _ h => iff_of_false (h.not_granted ?_ ?_) hok
    · simp [hstate]
    · simp
      decide

theorem handleUserauth_granted {cfg : ServerCfg}
    (hauth : ∀ calls, E.auth calls = cfg.checkPassword) (hstate : l.conn.state = .auth)
    (huser : user.length < 2 ^ 32) (hpass : pass.length < 2 ^ 32) (fault : Fault → Prop) :
    wp (handleUserauth E (userauthRequest user pass rest))
      (fun _ l' => Granted l'.toSession ↔ Accepts cfg user pass) fault l := by
  have hahead := ahead_rInit (hashStr user ++ (hashStr (ascii "ssh-connection") ++
    (hashStr (ascii "password") ++ (0 :: (hashStr pass ++ rest)))))
  obtain ⟨huserval, h₁⟩ := hahead.rStr huser
  obtain ⟨hservice, h₂⟩ := h₁.rStr (by decide)
  obtain ⟨hmethod, h₃⟩ := h₂.rStr (by decide)
  obtain ⟨hchange, h₄⟩ := h₃.rByte
  obtain ⟨hpassval, h₅⟩ := h₄.rStr hpass
  simp only [handleUserauth, userauthRequest, List.drop_succ_cons, List.drop_zero, huserval,
    hservice, hmethod, hchange, hpassval, h₃.err, h₅.err, wp_bind, wp_ite, wp_update]
  refine ⟨fun h => absurd h (by decide), fun _ => ?_⟩
  refine ⟨fun h => absurd h (by decide), fun _ => ⟨fun h => absurd h (by decide),
    fun _ => ⟨fun h => absurd rfl h, fun _ => ⟨fun hlong => ?_, fun hshort => ?_⟩⟩⟩⟩
  · have hlong : pwSize ≤ pass.length := hlong.resolve_left (by simp)
    refine wp.imp (sendPacket_emits E _ _ fault) fun _ _ h => iff_of_false (h.not_granted ?_ ?_) ?_
    · simp [hstate]
    · simp
      decide
    · exact fun haccepts => absurd haccepts.1 (Nat.not_lt.mpr hlong)
  · have hshort : pass.length < pwSize := Nat.not_le.mp (not_or.mp hshort).2
    refine wp.imp (checkPassword_granted (l := { l with conn := { l.conn with
      login := { l.conn.login with user := user.take (userSize - 1) } } }) hauth hstate fault)
      fun _ _ h => h.trans ?_
    exact ⟨fun hcheck => ⟨hshort, hcheck⟩, And.right⟩

/-- **Exact credentials.**  The server grants `ST_CONN` exactly to the configured user
with the configured password, except on requests that pad one of the two. -/
theorem exact_credentials_iff {cfg : ServerCfg}
    (hauth : ∀ calls, E.auth calls = cfg.checkPassword) (hstate : l.conn.state = .auth)
    (huser : user.length < 2 ^ 32) (hpass : pass.length < 2 ^ 32) :
    wp (handleUserauth E (userauthRequest user pass rest)) (fun _ l' =>
      (Granted l'.toSession ↔ user = cfg.user ∧ pass = cfg.pass) ↔ ¬ Padded cfg user pass)
      (fun _ => False) l := by
  refine wp.imp (handleUserauth_granted hauth hstate huser hpass _) fun _ _ h => ?_
  rw [h]
  exact accepts_iff

/-! ### The default configuration -/

/-- `SSH_DEFAULT_USER` and `SSH_DEFAULT_PASS`. -/
def defaultCfg : ServerCfg where
  user := ascii "admin"
  pass := ascii "admin"
  length_user := by decide
  length_pass := by decide
  user_terminated := by decide
  pass_terminated := by decide

/-- A connection on which the password is asked for. -/
theorem exists_auth : ∃ s, Reachable (plainEnv defaultCfg.checkPassword) s ∧
    s.link.conn.state = .auth :=
  exists_reachable [.poll] [.data (clientKex ++ sealedFrame serviceRequest)] (by decide +kernel)

theorem exact_credentials_admin : ∃ s, Reachable (plainEnv defaultCfg.checkPassword) s ∧
    s.link.conn.state = .auth ∧
    wp (handleUserauth (plainEnv defaultCfg.checkPassword)
      (userauthRequest (ascii "admin") (ascii "admin") []))
      (fun _ l' => (Granted l'.toSession ↔
        ascii "admin" = defaultCfg.user ∧ ascii "admin" = defaultCfg.pass) ↔
          ¬ Padded defaultCfg (ascii "admin") (ascii "admin"))
      (fun _ => False) s.link := by
  obtain ⟨s, hreach, hstate⟩ := exists_auth
  exact ⟨s, hreach, hstate, exact_credentials_iff (fun _ => rfl) hstate (by decide) (by decide)⟩

/-- Whoever knows the password may put a NUL and anything else behind it. -/
theorem padded_password_granted : ∃ s, Reachable (plainEnv defaultCfg.checkPassword) s ∧
    s.link.conn.state = .auth ∧
    ¬ wp (handleUserauth (plainEnv defaultCfg.checkPassword)
      (userauthRequest (ascii "admin") (ascii "admin" ++ 0 :: ascii "x") []))
      (fun _ l' => Granted l'.toSession ↔
        ascii "admin" = defaultCfg.user ∧ ascii "admin" ++ 0 :: ascii "x" = defaultCfg.pass)
      (fun _ => False) s.link := by
  obtain ⟨s, hreach, hstate⟩ := exists_auth
  refine ⟨s, hreach, hstate, fun hexact => ?_⟩
  have hauth : ∀ calls, (plainEnv defaultCfg.checkPassword).auth calls =
    defaultCfg.checkPassword := fun _ => rfl
  have hgranted : wp (handleUserauth (plainEnv defaultCfg.checkPassword)
      (userauthRequest (ascii "admin") (ascii "admin" ++ 0 :: ascii "x") []))
      (fun _ l' => Granted l'.toSession ↔
        Accepts defaultCfg (ascii "admin") (ascii "admin" ++ 0 :: ascii "x"))
      (fun _ => False) s.link :=
    handleUserauth_granted hauth hstate (by decide) (by decide) _
  obtain ⟨r, l', hrun, hends⟩ := hgranted.returns
  have haccepts : Accepts defaultCfg (ascii "admin") (ascii "admin" ++ 0 :: ascii "x") := by decide
  have hequal := (hexact.ok hrun).mp (hends.mpr haccepts)
  exact absurd hequal.2 (by decide)

end EfiSshServer
