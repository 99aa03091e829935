import Mathlib.Data.List.TakeWhile
import EfiSshServer.Reading
import EfiSshServer.Scenario

/-!
# Algorithm negotiation

A name-list is a comma-separated string, and `names` are its entries.  `ListHas` looks a
name up in such a list and `PickAlg` takes the first entry of the client's list that
`ListHas` finds in the server's: `pickAlg_eq` says that this is the first common name,
whatever the client's list looks like.

`ClientKexInit` are the fields of a client's `KEXINIT` and `Encodes` is their wire form.
`negotiate_iff` puts both together: `Negotiate` succeeds exactly on payloads that hold
all the fields and share a name with the server in each of the eight lists, and then it
has chosen the first common cipher and MAC of each direction.
-/

namespace EfiSshServer

open StateProgram LinkM

variable {list client name q : Bytes} {ours : String}

/-! ## Name-lists -/

/-- The entries of a name-list. -/
def names (list : Bytes) : List Bytes := if list = [] then [] else list.splitOn comma

theorem firstEntryLen_of_not_mem (h : comma ∉ list) : firstEntryLen list = list.length := by
  rw [firstEntryLen, List.takeWhile_eq_self_iff.mpr fun b hb => by
    simpa using fun heq : b = comma => h (heq ▸ hb)]

theorem firstEntryLen_append {rest : Bytes} (h : comma ∉ list) :
    firstEntryLen (list ++ comma :: rest) = list.length := by
  rw [firstEntryLen, List.takeWhile_append_of_pos fun b hb => by
    simpa using fun heq : b = comma => h (heq ▸ hb)]
  simp

/-- A list is a single entry, or an entry in front of a comma. -/
theorem entry_cases (list : Bytes) :
    comma ∉ list ∨ ∃ entry rest, list = entry ++ comma :: rest ∧ comma ∉ entry := by
  by_cases h : comma ∈ list
  · obtain ⟨entry, rest, heq, hnot⟩ := List.eq_append_cons_of_mem h
    exact .inr ⟨entry, rest, heq, hnot⟩
  · exact .inl h

theorem listHasFrom_succ {rounds : ℕ} (hne : list ≠ []) :
    listHasFrom (rounds + 1) list name =
      if list.take (firstEntryLen list) = name then true
      else
        match list.drop (firstEntryLen list) with
        | [] => false
        | _ :: rest => listHasFrom rounds rest name := by
  cases list with
  | nil => exact absurd rfl hne
  | cons b bs => rfl

theorem listHasFrom_iff {rounds : ℕ} (hrounds : list.length ≤ rounds)
    (hnames : [] ∉ list.splitOn comma) :
    listHasFrom rounds list name = true ↔ name ∈ list.splitOn comma := by
  induction rounds generalizing list with
  | zero =>
      rw [List.length_eq_zero_iff.mp (Nat.le_zero.mp hrounds)] at hnames
      exact absurd (by simp [List.splitOn_nil]) hnames
  | succ rounds ih =>
      cases hlist : list with
      | nil =>
          rw [hlist] at hnames
          exact absurd (by simp [List.splitOn_nil]) hnames
      | cons b bs =>
          rw [← hlist, listHasFrom_succ (hlist ▸ List.cons_ne_nil b bs)]
          rcases entry_cases list with hnot | ⟨entry, rest, rfl, hnot⟩
          · rw [firstEntryLen_of_not_mem hnot, List.take_length, List.drop_length,
              List.splitOn_eq_singleton hnot]
            simp [eq_comm]
          · rw [List.splitOn_append_cons_self_of_not_mem hnot] at hnames ⊢
            rw [firstEntryLen_append hnot, List.take_left, List.drop_left]
            have hrest : [] ∉ rest.splitOn comma := fun h =>
              hnames (List.mem_cons_of_mem _ h)
            have hlength : rest.length ≤ rounds := by
              rw [List.length_append, List.length_cons] at hrounds
              omega
            have hih := ih hlength hrest
            by_cases hentry : entry = name
            · simp [hentry]
            · simp only [hentry, if_false, hih, List.mem_cons]
              exact ⟨.inr, fun h => h.resolve_left fun heq => hentry heq.symm⟩

theorem listHas_iff (hours : [] ∉ (ascii ours).splitOn comma) :
    listHas ours name = true ↔ name ∈ (ascii ours).splitOn comma :=
  listHasFrom_iff (Nat.le_refl _) hours

theorem pickAlgFrom_eq {rounds : ℕ} (hrounds : client.length ≤ rounds)
    (hempty : listHas ours [] = false) :
    pickAlgFrom rounds client ours = (client.splitOn comma).find? fun n => listHas ours n := by
  induction rounds generalizing client with
  | zero =>
      rw [List.length_eq_zero_iff.mp (Nat.le_zero.mp hrounds), List.splitOn_nil]
      simp [pickAlgFrom, hempty]
  | succ rounds ih =>
      cases hclient : client with
      | nil => simp [pickAlgFrom, List.splitOn_nil, hempty]
      | cons b bs =>
          rw [← hclient]
          have hunfold : pickAlgFrom (rounds + 1) client ours =
              if listHas ours (client.take (firstEntryLen client)) then
                some (client.take (firstEntryLen client))
              else pickAlgFrom rounds (client.drop (firstEntryLen client + 1)) ours := by
            rw [hclient]
            rfl
          rw [hunfold]
          -- the last name of the list, or a name and a comma
          rcases entry_cases client with hnot | ⟨entry, rest, rfl, hnot⟩
          · rw [firstEntryLen_of_not_mem hnot, List.take_length, List.splitOn_eq_singleton hnot,
              List.drop_of_length_le (Nat.le_succ _), ih (Nat.zero_le _), List.splitOn_nil]
            by_cases hhas : listHas ours client = true
            · simp [hhas]
            · simp [hhas, hempty]
          · have hdrop : (entry ++ comma :: rest).drop (entry.length + 1) = rest := by
              rw [← List.drop_drop, List.drop_left]
              rfl
            have hlength : rest.length ≤ rounds := by
              rw [List.length_append, List.length_cons] at hrounds
              omega
            rw [firstEntryLen_append hnot, List.take_left, hdrop, ih hlength,
              List.splitOn_append_cons_self_of_not_mem hnot, List.find?_cons]
            by_cases hhas : listHas ours entry = true
            · simp [hhas]
            · simp [hhas]

/-- The first name of the client's list that is also in the server's. -/
def firstCommon (client : Bytes) (ours : String) : Option Bytes :=
  (names client).find? fun n => n ∈ names (ascii ours)

theorem names_of_ne_nil (h : list ≠ []) : names list = list.splitOn comma := if_neg h

theorem pickAlg_eq (hours : [] ∉ (ascii ours).splitOn comma) :
    pickAlg client ours = firstCommon client ours := by
  have hne : ascii ours ≠ [] := by
    intro h
    rw [h, List.splitOn_nil] at hours
    exact hours (by simp)
  have hhas : (fun n => listHas ours n) = fun n => decide (n ∈ names (ascii ours)) := by
    funext n
    rw [names_of_ne_nil hne, Bool.eq_iff_iff, listHas_iff hours, decide_eq_true_iff]
  have hempty : listHas ours [] = false := by
    rw [← Bool.not_eq_true, listHas_iff hours]
    exact hours
  rw [pickAlg, pickAlgFrom_eq (Nat.le_refl _) hempty, firstCommon, ← hhas]
  by_cases hclient : client = []
  · simp [hclient, names, List.splitOn_nil, hempty]
  · rw [names_of_ne_nil hclient]

/-- Some name is in both lists. -/
def Shares (client : Bytes) (ours : String) : Prop :=
  ∃ n ∈ names client, n ∈ names (ascii ours)

theorem firstCommon_ne_none_iff : firstCommon client ours ≠ none ↔ Shares client ours := by
  rw [firstCommon, ne_eq, List.find?_eq_none]
  simp [Shares]

/-! ## The client's `KEXINIT` -/

/-- The fields behind the message number and the cookie. -/
structure ClientKexInit where
  kex : Bytes
  hk : Bytes
  encCs : Bytes
  encSc : Bytes
  macCs : Bytes
  macSc : Bytes
  compCs : Bytes
  compSc : Bytes
  langCs : Bytes
  langSc : Bytes
  firstFollows : UInt8
  reserved : UInt32

namespace ClientKexInit

def lists (f : ClientKexInit) : List Bytes :=
  [f.kex, f.hk, f.encCs, f.encSc, f.macCs, f.macSc, f.compCs, f.compSc, f.langCs, f.langSc]

def bytes (f : ClientKexInit) : Bytes :=
  f.lists.flatMap hashStr ++ f.firstFollows :: putU32 f.reserved

/-- The payload `q` holds the fields completely. -/
def Encodes (f : ClientKexInit) (q : Bytes) : Prop :=
  (∀ list ∈ f.lists, list.length < 2 ^ 32) ∧
    ∃ header rest, header.length = 17 ∧ q = header ++ (f.bytes ++ rest)

/-- What `Negotiate` reads of them. -/
def fields (f : ClientKexInit) : KexInitFields where
  kex := f.kex
  hk := f.hk
  encCs := f.encCs
  encSc := f.encSc
  macCs := f.macCs
  macSc := f.macSc
  compCs := f.compCs
  compSc := f.compSc
  firstFollows := f.firstFollows
  err := false

theorem readKexInit_of_encodes {f : ClientKexInit} (h : f.Encodes q) :
    17 ≤ q.length ∧ readKexInit (q.drop 17) = f.fields := by
  obtain ⟨hsized, header, rest, hheader, rfl⟩ := h
  refine ⟨by rw [List.length_append]; omega, ?_⟩
  rw [List.drop_left' hheader]
  simp only [lists, List.forall_mem_cons] at hsized
  obtain ⟨h₁, h₂, h₃, h₄, h₅, h₆, h₇, h₈, h₉, h₁₀, -⟩ := hsized
  have hahead := ahead_rInit (f.bytes ++ rest)
  rw [show f.bytes ++ rest = hashStr f.kex ++ (hashStr f.hk ++ (hashStr f.encCs ++
    (hashStr f.encSc ++ (hashStr f.macCs ++ (hashStr f.macSc ++ (hashStr f.compCs ++
    (hashStr f.compSc ++ (hashStr f.langCs ++ (hashStr f.langSc ++
    (f.firstFollows :: (putU32 f.reserved ++ rest))))))))))) by simp [bytes, lists]] at hahead ⊢
  obtain ⟨v₁, a₁⟩ := hahead.rStr h₁
  obtain ⟨v₂, a₂⟩ := a₁.rStr h₂
  obtain ⟨v₃, a₃⟩ := a₂.rStr h₃
  obtain ⟨v₄, a₄⟩ := a₃.rStr h₄
  obtain ⟨v₅, a₅⟩ := a₄.rStr h₅
  obtain ⟨v₆, a₆⟩ := a₅.rStr h₆
  obtain ⟨v₇, a₇⟩ := a₆.rStr h₇
  obtain ⟨v₈, a₈⟩ := a₇.rStr h₈
  obtain ⟨-, a₉⟩ := a₈.rStr h₉
  obtain ⟨-, a₁₀⟩ := a₉.rStr h₁₀
  obtain ⟨v₁₁, a₁₁⟩ := a₁₀.rByte
  obtain ⟨-, a₁₂⟩ := a₁₁.rU32
  simp only [readKexInit, fields, v₁, v₂, v₃, v₄, v₅, v₆, v₇, v₈, v₁₁, a₁₂.err]

theorem exists_encodes (hlength : 17 ≤ q.length) (h : (readKexInit (q.drop 17)).err = false) :
    ∃ f : ClientKexInit, f.Encodes q := by
  obtain ⟨word, hword, -, t₁₂⟩ := rU32_took h
  obtain ⟨flag, t₁₁⟩ := rByte_took t₁₂.before
  obtain ⟨langSc, h₁₀, t₁₀⟩ := rStr_took t₁₁.before
  obtain ⟨langCs, h₉, t₉⟩ := rStr_took t₁₀.before
  obtain ⟨compSc, h₈, t₈⟩ := rStr_took t₉.before
  obtain ⟨compCs, h₇, t₇⟩ := rStr_took t₈.before
  obtain ⟨macSc, h₆, t₆⟩ := rStr_took t₇.before
  obtain ⟨macCs, h₅, t₅⟩ := rStr_took t₆.before
  obtain ⟨encSc, h₄, t₄⟩ := rStr_took t₅.before
  obtain ⟨encCs, h₃, t₃⟩ := rStr_took t₄.before
  obtain ⟨hk, h₂, t₂⟩ := rStr_took t₃.before
  obtain ⟨kex, h₁, t₁⟩ := rStr_took t₂.before
  have htook := t₁.trans (t₂.trans (t₃.trans (t₄.trans (t₅.trans (t₆.trans (t₇.trans
    (t₈.trans (t₉.trans (t₁₀.trans (t₁₁.trans t₁₂))))))))))
  obtain ⟨rest, hrest⟩ : ∃ rest, q.drop 17 = hashStr kex ++ (hashStr hk ++ (hashStr encCs ++
      (hashStr encSc ++ (hashStr macCs ++ (hashStr macSc ++ (hashStr compCs ++ (hashStr compSc ++
      (hashStr langCs ++ (hashStr langSc ++ ([flag] ++ word)))))))))) ++ rest :=
    ⟨_, htook.remaining⟩
  refine ⟨⟨kex, hk, encCs, encSc, macCs, macSc, compCs, compSc, langCs, langSc, flag,
    getU32 word⟩, ?_, q.take 17, rest, List.length_take_of_le hlength, ?_⟩
  · simp only [lists, List.forall_mem_cons]
    exact ⟨h₁, h₂, h₃, h₄, h₅, h₆, h₇, h₈, h₉, h₁₀, by simp⟩
  · conv_lhs => rw [← List.take_append_drop 17 q, hrest]
    simp only [bytes, lists, putU32_getU32 hword, List.flatMap_cons, List.flatMap_nil,
      List.append_assoc, List.append_nil, List.cons_append, List.nil_append]

/-- Each of the eight lists shares a name with the server's. -/
structure Agrees (f : ClientKexInit) : Prop where
  kex : Shares f.kex kexAlgs
  hk : Shares f.hk hostkeyAlgs
  encCs : Shares f.encCs encAlgs
  encSc : Shares f.encSc encAlgs
  macCs : Shares f.macCs macAlgs
  macSc : Shares f.macSc macAlgs
  compCs : Shares f.compCs compAlgs
  compSc : Shares f.compSc compAlgs

end ClientKexInit

/-! ## The choices -/

/-- The key length of a cipher the server lists. -/
inductive CipherKeyLen : Bytes → ℕ → Prop
  | aes128 : CipherKeyLen (ascii "aes128-ctr") 16
  | aes192 : CipherKeyLen (ascii "aes192-ctr") 24
  | aes256 : CipherKeyLen (ascii "aes256-ctr") 32

/-- The MAC of a name the server lists. -/
inductive MacNamed : Bytes → MacType → Prop
  | sha256 : MacNamed (ascii "hmac-sha2-256") .sha256
  | sha512 : MacNamed (ascii "hmac-sha2-512") .sha512

theorem cipherKeyLen_of_mem (h : name ∈ names (ascii encAlgs)) :
    CipherKeyLen name (encKeyLen name) := by
  rw [show names (ascii encAlgs) = [ascii "aes128-ctr", ascii "aes256-ctr", ascii "aes192-ctr"]
    by decide] at h
  simp only [List.mem_cons, List.not_mem_nil, or_false] at h
  rcases h with rfl | rfl | rfl
  · exact .aes128
  · exact .aes256
  · exact .aes192

theorem macNamed_of_mem (h : name ∈ names (ascii macAlgs)) : MacNamed name (macTypeOf name) := by
  rw [show names (ascii macAlgs) = [ascii "hmac-sha2-256", ascii "hmac-sha2-512"] by decide] at h
  simp only [List.mem_cons, List.not_mem_nil, or_false] at h
  rcases h with rfl | rfl
  · exact .sha256
  · exact .sha512

theorem mem_of_firstCommon (h : firstCommon client ours = some name) :
    name ∈ names (ascii ours) := by
  simpa using List.find?_some h

/-- The parameters in `k` are those of the first common cipher and MAC of each
direction. -/
structure ClientKexInit.Chooses (f : ClientKexInit) (k : Exchange) : Prop where
  cipherIn : ∃ n, firstCommon f.encCs encAlgs = some n ∧ CipherKeyLen n k.nextEncKeyLenIn
  cipherOut : ∃ n, firstCommon f.encSc encAlgs = some n ∧ CipherKeyLen n k.nextEncKeyLenOut
  macIn : ∃ n, firstCommon f.macCs macAlgs = some n ∧ MacNamed n k.nextMacTypeIn
  macOut : ∃ n, firstCommon f.macSc macAlgs = some n ∧ MacNamed n k.nextMacTypeOut

/-- None of the server's lists has an empty name. -/
theorem nil_not_mem_server_names (h : ours ∈ [kexAlgs, hostkeyAlgs, encAlgs, macAlgs, compAlgs]) :
    [] ∉ (ascii ours).splitOn comma := by
  have hall : ∀ ours ∈ [kexAlgs, hostkeyAlgs, encAlgs, macAlgs, compAlgs],
      [] ∉ (ascii ours).splitOn comma := by decide
  exact hall ours h

theorem pickAlg_ne_none_iff (h : ours ∈ [kexAlgs, hostkeyAlgs, encAlgs, macAlgs, compAlgs]) :
    pickAlg client ours ≠ none ↔ Shares client ours := by
  rw [pickAlg_eq (nil_not_mem_server_names h), firstCommon_ne_none_iff]

theorem cipher_chosen {n : ℕ} (h : (pickAlg client encAlgs).map encKeyLen = some n) :
    ∃ name, firstCommon client encAlgs = some name ∧ CipherKeyLen name n := by
  rw [pickAlg_eq (nil_not_mem_server_names (by simp)), Option.map_eq_some_iff] at h
  obtain ⟨name, hname, rfl⟩ := h
  exact ⟨name, hname, cipherKeyLen_of_mem (mem_of_firstCommon hname)⟩

theorem mac_chosen {m : MacType} (h : (pickAlg client macAlgs).map macTypeOf = some m) :
    ∃ name, firstCommon client macAlgs = some name ∧ MacNamed name m := by
  rw [pickAlg_eq (nil_not_mem_server_names (by simp)), Option.map_eq_some_iff] at h
  obtain ⟨name, hname, rfl⟩ := h
  exact ⟨name, hname, macNamed_of_mem (mem_of_firstCommon hname)⟩

theorem ClientKexInit.acceptable_iff {f : ClientKexInit} (h : f.Encodes q) :
    Acceptable q ↔ f.Agrees := by
  obtain ⟨hlong, hread⟩ := readKexInit_of_encodes h
  have hshares : ∀ {ours : String} {list : Bytes},
      ours ∈ [kexAlgs, hostkeyAlgs, encAlgs, macAlgs, compAlgs] →
      (pickAlg list ours ≠ none ↔ Shares list ours) := pickAlg_ne_none_iff
  constructor
  · rintro ⟨-, -, hkex, hhk, hencCs, hencSc, hmacCs, hmacSc, hcompCs, hcompSc⟩
    rw [hread] at hkex hhk hencCs hencSc hmacCs hmacSc hcompCs hcompSc
    exact ⟨(hshares (by simp)).mp hkex, (hshares (by simp)).mp hhk, (hshares (by simp)).mp hencCs,
      (hshares (by simp)).mp hencSc, (hshares (by simp)).mp hmacCs, (hshares (by simp)).mp hmacSc,
      (hshares (by simp)).mp hcompCs, (hshares (by simp)).mp hcompSc⟩
  · rintro ⟨hkex, hhk, hencCs, hencSc, hmacCs, hmacSc, hcompCs, hcompSc⟩
    refine ⟨hlong, by rw [hread]; rfl, ?_, ?_, ?_, ?_, ?_, ?_, ?_, ?_⟩ <;>
      rw [hread, hshares (by simp)] <;> assumption

theorem acceptable_iff : Acceptable q ↔ ∃ f : ClientKexInit, f.Encodes q ∧ f.Agrees := by
  constructor
  · intro h
    obtain ⟨f, hf⟩ := ClientKexInit.exists_encodes h.long h.complete
    exact ⟨f, hf, (ClientKexInit.acceptable_iff hf).mp h⟩
  · rintro ⟨f, hf, hagrees⟩
    exact (ClientKexInit.acceptable_iff hf).mpr hagrees

theorem Chosen.chooses {k : Exchange} {f : ClientKexInit} (h : Chosen q k) (hf : f.Encodes q) :
    f.Chooses k := by
  obtain ⟨-, -, hkeyIn, hkeyOut, hmacIn, hmacOut⟩ := h
  rw [(ClientKexInit.readKexInit_of_encodes hf).2] at hkeyIn hkeyOut hmacIn hmacOut
  exact ⟨cipher_chosen hkeyIn, cipher_chosen hkeyOut, mac_chosen hmacIn, mac_chosen hmacOut⟩

/-- `Negotiate` returns 0 exactly for a complete `KEXINIT` whose lists all share a name
with the server's, and then it has chosen the first common name of each list. -/
theorem negotiate_iff {E : Env} {l : Link} (hq : l.conn.kx.clientKexInit = some q) :
    wp (negotiate E) (fun r l' =>
      (r = 0 ↔ ∃ f : ClientKexInit, f.Encodes q ∧ f.Agrees) ∧
        (r = 0 → ∀ f : ClientKexInit, f.Encodes q → f.Chooses l'.conn.kx)) (fun _ => False) l := by
  refine wp.imp (negotiate_spec (by rw [hq]; exact Option.some_ne_none q)) fun r l' h => ?_
  obtain ⟨k, -, -, ⟨rfl, hchosen, heq⟩ | ⟨hr, hbad, -⟩⟩ := h
  · have hchosen := hchosen q hq
    have hkx : l'.conn.kx = k := by
      rw [show l'.conn = (l.toSession.withKx k).conn from congrArg Session.conn heq]
      rfl
    rw [hkx]
    exact ⟨⟨fun _ => acceptable_iff.mp hchosen.acceptable, fun _ => rfl⟩,
      fun _ f hf => hchosen.chooses hf⟩
  · exact ⟨⟨fun h => absurd h hr, fun h => absurd (acceptable_iff.mpr h) (hbad q hq)⟩,
      fun h => absurd h hr⟩

/-- A connection that has read a `KEXINIT` offering what the server offers. -/
def negotiating : Link where
  conn := { newConn [] [] with
    kx := { (newConn [] []).kx with clientKexInit := some clientKexInit } }
  log := []
  calls := []

/-- It is agreed on, and what is chosen is on top of its lists. -/
theorem negotiate_clientKexInit : ∃ l l' : Link,
    l.conn.kx.clientKexInit = some clientKexInit ∧
      negotiate (plainEnv fun _ _ => true) l = .ok (0, l') ∧
      (∃ f : ClientKexInit, f.Encodes clientKexInit ∧ f.Agrees) ∧
      ∀ f : ClientKexInit, f.Encodes clientKexInit → f.Chooses l'.conn.kx := by
  have hreturns : (negotiate (plainEnv fun _ _ => true) negotiating).toOption.any
      (fun out => decide (out.1 = 0)) = true := by decide +kernel
  obtain ⟨⟨ret, l'⟩, hrun, hret⟩ := exists_ok hreturns
  obtain rfl : ret = 0 := hret
  have hq : negotiating.conn.kx.clientKexInit = some clientKexInit := rfl
  generalize negotiating = l at hq hrun
  obtain ⟨hiff, hchooses⟩ := (negotiate_iff hq).ok hrun
  exact ⟨l, l', hq, hrun, hiff.mp rfl, hchooses rfl⟩

end EfiSshServer
