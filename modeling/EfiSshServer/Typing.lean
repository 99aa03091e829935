import EfiSshServer.ShimScenario

/-!
# What becomes of the keys that are typed

`PumpInput` takes everything out of the ring of the connection, 65535 bytes at most,
and pushes the keys into a ring of its own, which holds 255.  `PushKeyData` drops a
key that finds this ring full, and tells nobody.

As long as the keys of each read fit into the ring, the keys returned and those still
queued are the keys of all bytes read.  The first read that does not fit breaks this
for good: from then on there are too few.

What the log says of bytes and keys is tied to what the calls deliver: `PulledFrom` to
the results of `SshRead`, `runKeyCalls_returned` to those of the read calls.
-/

namespace EfiSshServer

open StateProgram RingBuffer

variable {σ : Type} {ssh : Ssh σ} {fw : Firmware σ} {s t : Shim σ}

/-! ## Bytes in, keys out -/

/-- The bytes `SshRead` has returned. -/
def pulledBytes : List (ShimEvent σ) → Bytes
  | [] => []
  | .pulled bytes _ :: log => pulledBytes log ++ bytes
  | _ :: log => pulledBytes log

/-- The keys the read calls have returned. -/
def returnedKeys : List (ShimEvent σ) → List KeyData
  | [] => []
  | .returned kd :: log => returnedKeys log ++ [kd]
  | _ :: log => returnedKeys log

/-- The keys returned so far and those still in the ring. -/
def keptKeys (s : Shim σ) : List KeyData := returnedKeys s.log ++ s.keyboard.keys.toList

/-- The keys of a read fit into what is free of the ring. -/
def ShimEvent.Fits : ShimEvent σ → Prop
  | .pulled bytes kb => kb.keys.count + (feedBytes kb.decoder bytes).2.length < shimKeyRing
  | _ => True

/-- Events that neither bring bytes nor take keys. -/
def ShimEvent.isAside : ShimEvent σ → Bool
  | .pulled .. | .returned _ => false
  | _ => true

theorem ShimEvent.isAside_of_isTyping {e : ShimEvent σ} (h : e.isTyping = true) :
    e.isAside = true := by
  cases e <;> first | rfl | cases h

theorem ShimEvent.isAside_of_isNote {e : ShimEvent σ} (h : e.isNote = true) :
    e.isAside = true := by
  cases e <;> first | rfl | cases h

section Aside

variable {es log : List (ShimEvent σ)} (haside : ∀ e ∈ es, e.isAside = true)

include haside

theorem pulledBytes_aside : pulledBytes (es ++ log) = pulledBytes log := by
  induction es with
  | nil => rfl
  | cons e es ih =>
      have hrest := ih fun e' he' => haside e' (List.mem_cons_of_mem _ he')
      have he := haside e List.mem_cons_self
      cases e <;> first | exact hrest | cases he

theorem returnedKeys_aside : returnedKeys (es ++ log) = returnedKeys log := by
  induction es with
  | nil => rfl
  | cons e es ih =>
      have hrest := ih fun e' he' => haside e' (List.mem_cons_of_mem _ he')
      have he := haside e List.mem_cons_self
      cases e <;> first | exact hrest | cases he

theorem fits_aside : (∀ e ∈ es ++ log, e.Fits) ↔ ∀ e ∈ log, e.Fits := by
  refine ⟨fun h e he => h e (List.mem_append_right _ he), fun h e he => ?_⟩
  rcases List.mem_append.mp he with hnew | hold
  · have he' := haside e hnew
    cases e
    case pulled => cases he'
    all_goals exact trivial
  · exact h e hold

end Aside

/-! ## What feeding does to the ring -/

theorem pushKeyData_keys (kd : KeyData) (s : Shim σ) :
    (pushKeyData kd s).keyboard.keys = s.keyboard.keys.pushAll [kd] := by
  by_cases hfull : s.keyboard.keys.isFull = true
  · simp [pushKeyData, fireNotify, Ring.pushAll, hfull]
  · simp [pushKeyData, fireNotify, Ring.pushAll, hfull]

theorem pushKeyData_decoder (kd : KeyData) (s : Shim σ) :
    (pushKeyData kd s).keyboard.decoder = s.keyboard.decoder := by
  by_cases hfull : s.keyboard.keys.isFull = true
  · simp [pushKeyData, fireNotify, hfull]
  · simp [pushKeyData, fireNotify, hfull]

theorem pushKey_keys (k : InputKey) (s : Shim σ) :
    (pushKey k s).keyboard.keys = s.keyboard.keys.pushAll [keyData k] := by
  unfold pushKey
  split <;> rw [pushKeyData_keys]
  rfl

theorem pushKey_decoder (k : InputKey) (s : Shim σ) :
    (pushKey k s).keyboard.decoder = s.keyboard.decoder := by
  unfold pushKey
  split <;> rw [pushKeyData_decoder]
  rfl

theorem pushKeys_keys (ks : List InputKey) (s : Shim σ) :
    (pushKeys ks s).keyboard.keys = s.keyboard.keys.pushAll (ks.map keyData) := by
  induction ks generalizing s with
  | nil => rfl
  | cons k ks ih =>
      calc (pushKeys ks (pushKey k s)).keyboard.keys
          = (pushKey k s).keyboard.keys.pushAll (ks.map keyData) := ih _
        _ = (s.keyboard.keys.pushAll [keyData k]).pushAll (ks.map keyData) := by rw [pushKey_keys]
        _ = s.keyboard.keys.pushAll ([keyData k] ++ ks.map keyData) :=
            (Ring.pushAll_append _ _ _).symm

theorem pushKeys_decoder (ks : List InputKey) (s : Shim σ) :
    (pushKeys ks s).keyboard.decoder = s.keyboard.decoder := by
  induction ks generalizing s with
  | nil => rfl
  | cons k ks ih => exact (ih _).trans (pushKey_decoder k s)

variable (fw) in
theorem feed_keys (b : UInt8) (s : Shim σ) :
    (feed fw b s).keyboard.keys =
      s.keyboard.keys.pushAll ((feedByte s.keyboard.decoder b).2.map keyData) := by
  simp only [feed]
  split
  · simp only [setEscTick]
    exact pushKeys_keys _ _
  · exact pushKeys_keys _ _

variable (fw) in
theorem feed_decoder (b : UInt8) (s : Shim σ) :
    (feed fw b s).keyboard.decoder = (feedByte s.keyboard.decoder b).1 := by
  simp only [feed]
  split
  · simp only [setEscTick]
    exact pushKeys_decoder _ _
  · exact pushKeys_decoder _ _

variable (fw) in
/-- The ring after feeding takes the keys of the bytes, as far as they fit. -/
theorem feedAll_keys (bytes : Bytes) (s : Shim σ) :
    (feedAll fw bytes s).keyboard.keys =
      s.keyboard.keys.pushAll ((feedBytes s.keyboard.decoder bytes).2.map keyData) := by
  induction bytes generalizing s with
  | nil => rfl
  | cons b bs ih =>
      rw [feedBytes, List.map_append, Ring.pushAll_append, ← feed_keys fw, ← feed_decoder fw]
      exact ih _

variable (fw) in
theorem feedAll_decoder (bytes : Bytes) (s : Shim σ) :
    (feedAll fw bytes s).keyboard.decoder = (feedBytes s.keyboard.decoder bytes).1 := by
  induction bytes generalizing s with
  | nil => rfl
  | cons b bs ih =>
      rw [feedBytes, ← feed_decoder fw]
      exact ih _

/-- The check at the end of a pump gives an escape sequence up, or leaves the keyboard
as it is. -/
theorem checkEsc_keyboard (fw : Firmware σ) (s : Shim σ) :
    (checkEsc fw s).keyboard = s.keyboard ∨ .escTimeout ∈ (checkEsc fw s).log := by
  simp only [checkEsc]
  split
  · exact .inl rfl
  split
  · refine .inr ?_
    obtain ⟨es, hlog, -⟩ := (feedAll_typed fw (s.keyboard.decoder.esc.drop 1) _).log
    obtain ⟨es', hlog', -⟩ := (pushKey_typed escKey { s with
      keyboard := { s.keyboard with decoder := { s.keyboard.decoder with esc := [] } }
      log := .escTimeout :: .ticks :: s.log }).log
    rw [flushEsc, hlog, hlog']
    simp
  · exact .inl rfl

/-! ## The account of the keys -/

/-- The keys kept are the keys of the bytes read, if every read fitted; otherwise there
are fewer. -/
structure Accounted (s : Shim σ) : Prop where
  decoder : s.keyboard.decoder = (feedBytes newDecoder (pulledBytes s.log)).1
  kept : (∀ e ∈ s.log, e.Fits) → keptKeys s = keysOf (pulledBytes s.log)
  short : ¬ (∀ e ∈ s.log, e.Fits) →
    (keptKeys s).length < (keysOf (pulledBytes s.log)).length

theorem Accounted.length_le (h : Accounted s) :
    (keptKeys s).length ≤ (keysOf (pulledBytes s.log)).length := by
  by_cases hfits : ∀ e ∈ s.log, e.Fits
  · exact (congrArg List.length (h.kept hfits)).le
  · exact (h.short hfits).le

/-- Steps that leave the ring and the decoder alone. -/
theorem Accounted.aside (es : List (ShimEvent σ)) (h : Accounted s)
    (hlog : t.log = es ++ s.log) (haside : ∀ e ∈ es, e.isAside = true)
    (hkeys : t.keyboard.keys = s.keyboard.keys)
    (hdecoder : t.keyboard.decoder = s.keyboard.decoder) : Accounted t := by
  have hpulled : pulledBytes t.log = pulledBytes s.log := by rw [hlog, pulledBytes_aside haside]
  have hkept : keptKeys t = keptKeys s := by
    rw [keptKeys, keptKeys, hlog, returnedKeys_aside haside, hkeys]
  have hfits : (∀ e ∈ t.log, e.Fits) ↔ ∀ e ∈ s.log, e.Fits := by rw [hlog, fits_aside haside]
  exact ⟨by rw [hdecoder, hpulled, h.decoder], by rw [hfits, hkept, hpulled]; exact h.kept,
    by rw [hfits, hkept, hpulled]; exact h.short⟩

theorem keysOf_append (typed new : Bytes) :
    keysOf (typed ++ new) =
      keysOf typed ++ (feedBytes (feedBytes newDecoder typed).1 new).2.map keyData := by
  rw [keysOf, feedBytes_append, List.map_append, keysOf]

/-- A read, with the keys that come of it. -/
theorem Accounted.pulled (h : Accounted s) (bytes : Bytes) (host : σ) :
    Accounted (feedAll fw bytes
      { s with host := host, log := .pulled bytes s.keyboard :: s.log }) := by
  obtain ⟨es, hlog, htyping⟩ := (feedAll_typed fw bytes
    { s with host := host, log := .pulled bytes s.keyboard :: s.log }).log
  have hkeys := feedAll_keys fw bytes
    { s with host := host, log := .pulled bytes s.keyboard :: s.log }
  have hdecoder := feedAll_decoder fw bytes
    { s with host := host, log := .pulled bytes s.keyboard :: s.log }
  generalize feedAll fw bytes _ = t at hlog hkeys hdecoder ⊢
  have haside : ∀ e ∈ es, e.isAside = true := fun e he =>
    ShimEvent.isAside_of_isTyping (htyping e he)
  have hpulled : pulledBytes t.log = pulledBytes s.log ++ bytes := by
    rw [hlog, pulledBytes_aside haside, pulledBytes]
  have hreturned : returnedKeys t.log = returnedKeys s.log := by
    rw [hlog, returnedKeys_aside haside]
    rfl
  have hfits : (∀ e ∈ t.log, e.Fits) ↔
      (ShimEvent.pulled bytes s.keyboard : ShimEvent σ).Fits ∧ ∀ e ∈ s.log, e.Fits := by
    rw [hlog, fits_aside haside, List.forall_mem_cons]
  have htyped : keysOf (pulledBytes t.log) = keysOf (pulledBytes s.log) ++
      (feedBytes s.keyboard.decoder bytes).2.map keyData := by
    rw [hpulled, keysOf_append, ← h.decoder]
  -- the ring takes what it has room for; the rest is dropped
  have hring : t.keyboard.keys.toList = s.keyboard.keys.toList ++
      ((feedBytes s.keyboard.decoder bytes).2.map keyData).take
        (shimKeyRing - 1 - s.keyboard.keys.count) := by
    rw [hkeys, Ring.toList_pushAll]
  have hkept : keptKeys t = keptKeys s ++
      ((feedBytes s.keyboard.decoder bytes).2.map keyData).take
        (shimKeyRing - 1 - s.keyboard.keys.count) := by
    rw [keptKeys, keptKeys, hreturned, hring, List.append_assoc]
  refine ⟨?_, fun hall => ?_, fun hsome => ?_⟩
  · rw [hdecoder, hpulled, feedBytes_append, ← h.decoder]
  · obtain ⟨hroom, hold⟩ := hfits.mp hall
    have hroom : s.keyboard.keys.count + (feedBytes s.keyboard.decoder bytes).2.length <
        shimKeyRing := hroom
    rw [hkept, htyped, h.kept hold, List.take_of_length_le (by rw [List.length_map]; omega)]
  · rw [hkept, htyped, List.length_append, List.length_append, List.length_take]
    have hle := h.length_le
    by_cases hold : ∀ e ∈ s.log, e.Fits
    · -- This is the first read that does not fit.
      have hroom : ¬ s.keyboard.keys.count + (feedBytes s.keyboard.decoder bytes).2.length <
          shimKeyRing := fun hroom => hsome (hfits.mpr ⟨hroom, hold⟩)
      have hcount := s.keyboard.keys.count_lt
      rw [List.length_map]
      omega
    · -- keys lost before stay lost
      have hshort := h.short hold
      omega

theorem Accounted.popped (h : Accounted s) (hkey : keysEmpty s = false) :
    Accounted { s with
      keyboard := { s.keyboard with keys := s.keyboard.keys.pop }
      log := .returned (s.keyboard.keys.cells s.keyboard.keys.tail) :: s.log } := by
  have hkept : keptKeys s = returnedKeys s.log ++
      [s.keyboard.keys.cells s.keyboard.keys.tail] ++ s.keyboard.keys.pop.toList := by
    rw [keptKeys, Ring.toList_pop _ hkey, List.append_assoc, List.singleton_append]
  refine ⟨h.decoder, fun hall => ?_, fun hsome => ?_⟩
  · refine Eq.trans ?_ (h.kept fun e he => hall e (List.mem_cons_of_mem _ he))
    exact hkept.symm
  · refine lt_of_eq_of_lt (congrArg List.length hkept.symm) (h.short fun hold => hsome ?_)
    exact List.forall_mem_cons.mpr ⟨trivial, hold⟩

/-- Without a reset, a timeout or a loss so far, the keys are accounted for. -/
def Account (s : Shim σ) : Prop :=
  s.disconnected = false → .inputReset ∉ s.log → .escTimeout ∉ s.log → Accounted s

theorem Account.step (hstep : ShimStep ssh fw s t) (h : Account s) : Account t := by
  intro hconn hreset hesc
  -- what is excluded of the log now was excluded of it before the step
  have hold : ∀ es : List (ShimEvent σ), t.log = es ++ s.log → s.disconnected = false →
      Accounted s := by
    intro es hlog hconn'
    rw [hlog, List.mem_append, not_or] at hreset hesc
    exact h hconn' hreset.2 hesc.2
  cases hstep with
  | pulled bytes host hconn' hread =>
      obtain ⟨es, hlog, -⟩ := (feedAll_typed fw bytes
        { s with host := host, log := .pulled bytes s.keyboard :: s.log }).log
      refine Accounted.pulled (hold (es ++ [.pulled bytes s.keyboard]) ?_ hconn') bytes host
      rw [hlog, List.append_assoc, List.singleton_append]
  | readLost host hconn' hread =>
      have hgone := ((fireBreak_typed _).trans (injectExit_typed _)).disconnected.symm.trans hconn
      cases hgone
  | injected hgone =>
      have hconn' := (injectExit_typed s).disconnected.symm.trans hconn
      rw [hgone] at hconn'
      cases hconn'
  | checked hconn' =>
      obtain ⟨es, hlog, htyping⟩ := (checkEsc_typed fw s).log
      rcases checkEsc_keyboard fw s with hsame | htimeout
      · exact (hold es hlog hconn').aside es hlog
          (fun e he => ShimEvent.isAside_of_isTyping (htyping e he)) (by rw [hsame]) (by rw [hsame])
      -- a sequence that timed out is excluded
      · exact absurd htimeout hesc
  | polled host hconn' => exact (hold [] rfl hconn').aside [] rfl (by simp) rfl rfl
  | wrote rounds bytes host hconn' =>
      exact (hold [_] rfl hconn').aside [.wrote bytes true] rfl (by simp [ShimEvent.isAside]) rfl
        rfl
  | pollLost => cases hconn
  | writeLost => cases hconn
  | popped hkey => exact (hold [_] rfl hconn).popped hkey
  | reset => exact absurd List.mem_cons_self hreset
  | registered i n => exact (hold [] rfl hconn).aside [] rfl (by simp) rfl rfl
  | noted e hnote =>
      refine (hold [e] rfl hconn).aside [e] rfl ?_ rfl rfl
      simpa using ShimEvent.isAside_of_isNote hnote

/-! ## What the calls deliver -/

/-- A run of the connection from `h`, with the bytes that its calls of `SshRead` delivered. -/
inductive SshRuns (ssh : Ssh σ) (h : σ) : List Bytes → σ → Prop
  | none : SshRuns ssh h [] h
  | read {reads : List Bytes} {bytes : Bytes} {h' h'' : σ} (hrun : SshRuns ssh h reads h')
      (hread : ssh.read pumpBuf h' = .ok (some bytes, h'')) : SshRuns ssh h (reads ++ [bytes]) h''
  | readEnd {reads : List Bytes} {h' h'' : σ} (hrun : SshRuns ssh h reads h')
      (hread : ssh.read pumpBuf h' = .ok (none, h'')) : SshRuns ssh h reads h''
  | polled {reads : List Bytes} {ok : Bool} {h' h'' : σ} (hrun : SshRuns ssh h reads h')
      (hpoll : ssh.poll h' = .ok (ok, h'')) : SshRuns ssh h reads h''
  | wrote {reads : List Bytes} {rounds : ℕ} {bytes : Bytes} {ok : Bool} {h' h'' : σ}
      (hrun : SshRuns ssh h reads h') (hwrite : ssh.write rounds bytes h' = .ok (ok, h'')) :
      SshRuns ssh h reads h''

/-- A call of `ReadCommon` or of the notify function of `WaitForKey`. -/
inductive KeyCall where
  | read
  | waitKey
  deriving DecidableEq

section Calls

variable (ssh : Ssh σ) (fw : Firmware σ) (rounds : ℕ)

/-- The answers of `ReadCommon` in a call, none or one. -/
def runKeyCall : KeyCall → ShimM σ (List (EfiStatus × Option KeyData))
  | .read => do
      let answer ← readCommon ssh fw rounds
      return [answer]
  | .waitKey => do
      shimWaitKeyNotify ssh fw rounds
      return []

def runKeyCalls : List KeyCall → ShimM σ (List (EfiStatus × Option KeyData))
  | [] => return []
  | call :: calls => do
      let answers ← runKeyCall ssh fw rounds call
      let more ← runKeyCalls calls
      return answers ++ more

end Calls

/-- The bytes recorded as read are those that `SshRead` delivered on the way from `host`. -/
def PulledFrom (ssh : Ssh σ) (host : σ) (s : Shim σ) : Prop :=
  ∃ reads, SshRuns ssh host reads s.host ∧ pulledBytes s.log = reads.flatten

section Delivery

variable {host : σ}

theorem PulledFrom.aside {reads : List Bytes} {es : List (ShimEvent σ)}
    (hrun : SshRuns ssh host reads t.host) (hpulled : pulledBytes s.log = reads.flatten)
    (hlog : t.log = es ++ s.log) (haside : ∀ e ∈ es, e.isAside = true) : PulledFrom ssh host t :=
  ⟨reads, hrun, by rw [hlog, pulledBytes_aside haside, hpulled]⟩

/-- Typing reads nothing. -/
theorem PulledFrom.typed (h : PulledFrom ssh host s) (ht : Typed s t) :
    PulledFrom ssh host t := by
  obtain ⟨reads, hrun, hpulled⟩ := h
  obtain ⟨es, hlog, htyping⟩ := ht.log
  exact .aside (ht.host ▸ hrun) hpulled hlog fun e he =>
    ShimEvent.isAside_of_isTyping (htyping e he)

theorem PulledFrom.step (hstep : ShimStep ssh fw s t) (h : PulledFrom ssh host s) :
    PulledFrom ssh host t := by
  obtain ⟨reads, hrun, hpulled⟩ := h
  cases hstep with
  | pulled bytes h' _ hread =>
      refine PulledFrom.typed ?_ (feedAll_typed fw bytes _)
      refine ⟨reads ++ [bytes], hrun.read hread, ?_⟩
      rw [pulledBytes, hpulled, List.flatten_append]
      simp
  | readLost h' _ hread =>
      refine PulledFrom.typed ?_ ((fireBreak_typed _).trans (injectExit_typed _))
      exact ⟨reads, hrun.readEnd hread, hpulled⟩
  | injected => exact PulledFrom.typed ⟨reads, hrun, hpulled⟩ (injectExit_typed s)
  | checked => exact PulledFrom.typed ⟨reads, hrun, hpulled⟩ (checkEsc_typed fw s)
  | polled h' _ hpoll | pollLost h' _ hpoll => exact ⟨reads, hrun.polled hpoll, hpulled⟩
  | wrote _ _ h' _ hwrite | writeLost _ _ h' _ hwrite => exact ⟨reads, hrun.wrote hwrite, hpulled⟩
  | popped | reset | registered => exact ⟨reads, hrun, hpulled⟩
  | noted e hnote =>
      refine .aside hrun hpulled (show _ = [e] ++ _ from rfl) ?_
      simpa using ShimEvent.isAside_of_isNote hnote

end Delivery

/-- The client does not come back. -/
theorem ShimStep.gone (hstep : ShimStep ssh fw s t) (h : s.disconnected = true) :
    t.disconnected = true := by
  have hnot : ¬ s.disconnected = false := by
    rw [h]
    decide
  cases hstep with
  | pulled _ _ hconn | readLost _ hconn | checked hconn | polled _ hconn | pollLost _ hconn =>
      exact absurd hconn hnot
  | wrote _ _ _ hconn | writeLost _ _ _ hconn => exact absurd hconn hnot
  | injected => exact (injectExit_typed s).disconnected.trans h
  | popped | reset | registered | noted => exact h

/-- Typing returns nothing. -/
theorem Typed.returned (h : Typed s t) : returnedKeys t.log = returnedKeys s.log := by
  obtain ⟨es, hlog, htyping⟩ := h.log
  rw [hlog]
  exact returnedKeys_aside fun e he => ShimEvent.isAside_of_isTyping (htyping e he)

theorem pumpInput_returned (rounds : ℕ) (s : Shim σ) :
    wp (pumpInput ssh fw rounds) (fun _ t => returnedKeys t.log = returnedKeys s.log)
      anyStop s := by
  have hrounds : ∀ rounds s, wp (pumpRounds ssh fw rounds)
      (fun _ t => returnedKeys t.log = returnedKeys s.log) anyStop s := by
    intro rounds
    induction rounds with
    | zero => exact fun _ => trivial
    | succ rounds ih =>
        intro s
        simp only [pumpRounds, wp_bind, wp_get]
        refine wp_call_of_ok fun out host hread => ?_
        cases out with
        | none =>
            simp only [wp_bind, wp_lose, wp_modify, wp_pure]
            exact ((fireBreak_typed _).trans (injectExit_typed _)).returned
        | some bytes =>
            simp only [wp_bind, ShimM.wp_record, wp_modify]
            have hfed := (feedAll_typed fw bytes
              { s with host := host, log := .pulled bytes s.keyboard :: s.log }).returned
            refine wp.ite (fun _ => hfed) fun _ => ?_
            exact wp.imp (ih _) fun _ _ h => h.trans hfed
  simp only [pumpInput, wp_bind, wp_get]
  refine wp.ite (fun _ => (injectExit_typed s).returned) fun _ => ?_
  simp only [wp_bind]
  refine wp.imp (hrounds rounds s) fun ok t h => ?_
  exact wp.ite (fun _ => (checkEsc_typed fw t).returned.trans h) fun _ => h

/-- Unless the client is gone, a read returns the key that it records. -/
theorem readCommon_returned (rounds : ℕ) (s : Shim σ) :
    wp (readCommon ssh fw rounds) (fun answer t => t.disconnected = false →
      returnedKeys t.log = returnedKeys s.log ++ answer.2.toList) anyStop s := by
  simp only [readCommon, wp_bind]
  refine wp.imp (pumpInput_returned rounds s) fun _ t h => ?_
  rw [popKey, wp_bind]
  simp only [wp_get]
  refine wp.ite (fun _ => ?_) fun _ => ?_
  · simp only [wp_pure, wp_bind, wp_get]
    refine wp.ite (fun hlocal hconn => ?_) fun _ _ => ?_
    · exact absurd (hconn.symm.trans hlocal.1) (by decide)
    · rw [h]
      exact (List.append_nil _).symm
  · intro _
    change returnedKeys t.log ++ _ = _
    rw [h]
    rfl

theorem shimWaitKeyNotify_returned (rounds : ℕ) (s : Shim σ) :
    wp (shimWaitKeyNotify ssh fw rounds)
      (fun _ t => returnedKeys t.log = returnedKeys s.log) anyStop s := by
  simp only [shimWaitKeyNotify, wp_bind]
  refine wp.imp (pumpInput_returned rounds s) fun _ t h => ?_
  simp only [wp_get]
  refine wp.ite (fun _ => h) fun _ => wp.ite (fun _ => ?_) fun _ => h
  simp only [wp_bind, ShimM.wp_record]
  exact wp.ite (fun _ => h) fun _ => h

/-- The keys that a sequence of calls returns are those it records, unless the client is lost
on the way. -/
theorem runKeyCalls_returned (rounds : ℕ) (calls : List KeyCall) (s : Shim σ) :
    wp (runKeyCalls ssh fw rounds calls) (fun answers t =>
      (s.disconnected = true → t.disconnected = true) ∧ (t.disconnected = false →
        returnedKeys t.log = returnedKeys s.log ++ answers.filterMap Prod.snd)) anyStop s := by
  have hgone : ∀ {s t : Shim σ}, ShimSteps ssh fw s t → s.disconnected = true →
      t.disconnected = true := fun hsteps =>
    hsteps.invariant (I := fun s => s.disconnected = true) fun _ _ => ShimStep.gone
  have hcall : ∀ (call : KeyCall) (s : Shim σ), wp (runKeyCall ssh fw rounds call)
      (fun answers t => (s.disconnected = true → t.disconnected = true) ∧
        (t.disconnected = false →
          returnedKeys t.log = returnedKeys s.log ++ answers.filterMap Prod.snd)) anyStop s := by
    intro call s
    cases call with
    | read =>
        rw [runKeyCall, wp_bind]
        refine wp.imp (readCommon_steps.both (readCommon_returned rounds s)) fun answer t h => ?_
        refine ⟨hgone h.1, fun hconn => ?_⟩
        rw [h.2 hconn]
        rcases answer with ⟨status, _ | kd⟩
        · rfl
        · rfl
    | waitKey =>
        rw [runKeyCall, wp_bind]
        refine wp.imp (shimWaitKeyNotify_steps.both (shimWaitKeyNotify_returned rounds s))
          fun _ t h => ?_
        exact ⟨hgone h.1, fun _ => h.2.trans (List.append_nil _).symm⟩
  induction calls generalizing s with
  | nil => exact ⟨id, fun _ => (List.append_nil _).symm⟩
  | cons call calls ih =>
      rw [runKeyCalls, wp_bind]
      refine wp.imp (hcall call s) fun answers t h => ?_
      rw [wp_bind]
      refine wp.imp (ih t) fun more u h' => ?_
      refine ⟨fun hlost => h'.1 (h.1 hlost), fun hconn => ?_⟩
      -- a client that is there at the end was there all the time
      have hconn' : t.disconnected = false := by
        by_contra hlost
        rw [Bool.not_eq_false] at hlost
        exact absurd (hconn.symm.trans (h'.1 hlost)) (by decide)
      rw [h'.2 hconn, h.2 hconn', List.append_assoc, List.filterMap_append]

/-- The keys returned and those in the ring are the keys of all bytes read if and only if
the keys of every read fitted into the ring.  The bytes are those that `SshRead` delivered,
and the keys those that the calls return. -/
theorem keys_kept_iff {host : σ} {c : Console σ} (h : ShimReachable ssh fw host c)
    (hconn : c.disconnected = false) (hreset : .inputReset ∉ c.log)
    (hesc : .escTimeout ∉ c.log) :
    (returnedKeys c.log ++ c.keyboard.keys.toList = keysOf (pulledBytes c.log) ↔
      ∀ e ∈ c.log, e.Fits) ∧
      PulledFrom ssh host c.toShim ∧
      ∀ rounds calls answers t, runKeyCalls ssh fw rounds calls c.toShim = .ok (answers, t) →
        t.disconnected = false →
        returnedKeys t.log = returnedKeys c.log ++ answers.filterMap Prod.snd := by
  have hstart : Account (zeroConsole host).toShim := by
    intro _ _ _
    have hring : (zeroConsole host).keyboard.keys.toList = [] :=
      (Ring.isEmpty_iff_toList _).mp (by simp [Ring.isEmpty, zeroConsole])
    exact ⟨rfl, fun _ => hring, fun hsome => absurd (by simp [zeroConsole]) hsome⟩
  have haccount := h.invariant (fun _ _ => Account.step) hstart hconn hreset hesc
  refine ⟨⟨fun hkept => ?_, haccount.kept⟩, ?_, fun rounds calls answers t hrun => ?_⟩
  · by_contra hsome
    exact absurd (congrArg List.length hkept) (haccount.short hsome).ne
  · exact h.invariant (fun _ _ => PulledFrom.step) ⟨[], .none, rfl⟩
  · exact ((runKeyCalls_returned rounds calls c.toShim).ok hrun).2

/-- Two keys typed in one packet: both are kept, the first was read and the second is read
next. -/
theorem keys_kept_two : ∃ (host : Server) (c : Console Server) (t : Shim Server),
    ShimReachable (serverSsh (plainEnv fun _ _ => true)) quietFirmware host c ∧
    returnedKeys c.log ++ c.keyboard.keys.toList = keysOf (pulledBytes c.log) ∧
    returnedKeys c.log = keysOf (ascii "l") ∧
    runKeyCalls (serverSsh (plainEnv fun _ _ => true)) quietFirmware 1 [.read] c.toShim =
      .ok ((keysOf (ascii "s")).map fun kd => (efiSuccess, some kd), t) ∧
    returnedKeys t.log = keysOf (ascii "ls") := by
  obtain ⟨host, c, -, -, hreach, hconn, hplain, hfirst, hread⟩ :=
    exists_shim (E := plainEnv fun _ _ => true)
    (P := fun c => c.disconnected = false ∧ (c.log.all fun
      | .inputReset | .escTimeout => false
      | .pulled bytes kb => decide
          (kb.keys.count + (feedBytes kb.decoder bytes).2.length < shimKeyRing)
      | _ => true) = true ∧ returnedKeys c.log = keysOf (ascii "l") ∧
      (runKeyCalls (serverSsh (plainEnv fun _ _ => true)) quietFirmware 1 [.read]
        c.toShim).toOption.any (fun out => decide (out.1 =
          (keysOf (ascii "s")).map (fun kd => (efiSuccess, some kd)) ∧
            out.2.disconnected = false)) = true)
    [.readKey] [.data (clientShell "root" "secret"), .data [],
      .data (sealedFrame (clientData (ascii "ls")))] (by decide +kernel)
  rw [List.all_eq_true] at hplain
  have hreset : .inputReset ∉ c.log := fun h => absurd (hplain _ h) (by decide)
  have hesc : .escTimeout ∉ c.log := fun h => absurd (hplain _ h) (by decide)
  obtain ⟨hiff, -, hreturns⟩ := keys_kept_iff hreach hconn hreset hesc
  have hfits : ∀ e ∈ c.log, e.Fits := by
    intro e he
    have hplain := hplain e he
    cases e
    case pulled bytes kb =>
      have hroom : kb.keys.count + (feedBytes kb.decoder bytes).2.length < shimKeyRing :=
        of_decide_eq_true hplain
      exact hroom
    all_goals exact trivial
  obtain ⟨⟨answers, t⟩, hrun, rfl, hconn'⟩ := exists_ok hread
  refine ⟨host, c, t, hreach, hiff.mpr hfits, hfirst, hrun, ?_⟩
  rw [hreturns _ _ _ _ hrun hconn', hfirst]
  rfl

/-- Of 300 keys pasted at once, 45 are lost. -/
theorem keys_dropped_paste : ∃ (host : Server) (c : Console Server),
    Reachable (plainEnv fun _ _ => true) host ∧
    ShimReachable (serverSsh (plainEnv fun _ _ => true)) quietFirmware host c ∧
    c.disconnected = false ∧ .inputReset ∉ c.log ∧ .escTimeout ∉ c.log ∧
    returnedKeys c.log ++ c.keyboard.keys.toList ≠ keysOf (pulledBytes c.log) := by
  obtain ⟨host, c, hhost, -, hreach, hconn, hplain, hkept, htyped⟩ :=
    exists_shim (E := plainEnv fun _ _ => true)
    (P := fun c => c.disconnected = false ∧ (c.log.all fun
        | .inputReset | .escTimeout => false
        | _ => true) = true ∧
      (returnedKeys c.log ++ c.keyboard.keys.toList).length = 255 ∧
      (keysOf (pulledBytes c.log)).length = 300)
    [.waitKey] [.data (clientShell "root" "secret"), .data [],
      .data (sealedFrame (clientData (List.replicate 300 (byteOf 'a'))))] (by decide +kernel)
  rw [List.all_eq_true] at hplain
  refine ⟨host, c, hhost, hreach, hconn, fun h => absurd (hplain _ h) (by decide),
    fun h => absurd (hplain _ h) (by decide), fun heq => ?_⟩
  rw [heq, htyped] at hkept
  exact absurd hkept (by decide)

end EfiSshServer
