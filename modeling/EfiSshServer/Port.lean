import EfiSshServer.Tokeniser

/-!
# The port

The value of `-p` passes through a copy of fifteen characters, an `int`, and a cast to
16 bits before the test for zero.  `options` walks over the arguments as `ParseArgs` does,
without looking at the values; `parseOptions_port` says what the walk leaves in `Port`, and
`parseArgs_port_iff` when this is the number that was written.
-/

namespace EfiSshServer

/-! ## The options of a command line -/

/-- The options that have a value, with it, as far as the arguments are read, and whether
they are read to the end. -/
def options : List (List UInt16) → List (UInt16 × List UInt16) × Bool
  | [] => ([], true)
  | arg :: args =>
      if arg.headD 0 ≠ 0x2D then options args
      else if arg.getD 1 0 = 0x68 ∨ arg.getD 1 0 = 0x3F then ([], false)
      else if arg.getD 1 0 = 0x64 then options args
      else
        match args with
        | [] => ([], false)
        | value :: args =>
            if arg.getD 1 0 ∈ ([0x70, 0x75, 0x77, 0x73, 0x6F] : List UInt16) then
              ((arg.getD 1 0, value) :: (options args).1, (options args).2)
            else ([], false)

def portOption (o : UInt16 × List UInt16) : Option (List UInt16) :=
  if o.1 = 0x70 then some o.2 else none

/-- The values of the `-p` options that are read. -/
def portValues (args : List (List UInt16)) : List (List UInt16) :=
  (options args).1.filterMap portOption

def IsDecimal (d : List UInt16) : Prop := d ≠ [] ∧ ∀ c ∈ d, 0x30 ≤ c ∧ c ≤ 0x39

/-- The number written, behind digits of the value `v`. -/
def numberFrom (v : ℕ) (d : List UInt16) : ℕ := d.foldl (fun v c => v * 10 + (c.toNat - 0x30)) v

def numberWritten (d : List UInt16) : ℕ := numberFrom 0 d

/-- The number written in the characters that are copied. -/
def copiedNumber (d : List UInt16) : ℕ := numberWritten (d.take (16 - 1))

/-! ## `atoi` on digits -/

theorem le_numberFrom (v : ℕ) (d : List UInt16) : v ≤ numberFrom v d := by
  induction d generalizing v with
  | nil => exact le_refl v
  | cons c d ih =>
    have hnext : v ≤ v * 10 + (c.toNat - 0x30) := by omega
    exact hnext.trans (ih _)

/-- What `ToAscii` does to a digit. -/
theorem asciiDigit {c : UInt16} (h : 0x30 ≤ c ∧ c ≤ 0x39) :
    (if c < 0x80 then c.toUInt8 else byteOf '?') = c.toUInt8 ∧ isDigit c.toUInt8 = true ∧
      isSpace c.toUInt8 = false ∧ c.toUInt8 ≠ 0x2D ∧ c.toUInt8 ≠ 0x2B ∧
      c.toUInt8.toNat = c.toNat := by
  have hlow : 0x30 ≤ c.toNat := UInt16.le_iff_toNat_le.mp h.1
  have hhigh : c.toNat ≤ 0x39 := UInt16.le_iff_toNat_le.mp h.2
  have hsmall : c < 0x80 := UInt16.lt_iff_toNat_lt.mpr (show c.toNat < 0x80 by omega)
  have hnat : c.toUInt8.toNat = c.toNat := by
    rw [UInt16.toNat_toUInt8]
    exact Nat.mod_eq_of_lt (by omega)
  have hne : ∀ n : ℕ, n < 256 → n < 0x30 → c.toUInt8 ≠ UInt8.ofNat n := by
    intro n hn hlt heq
    have hval := congrArg UInt8.toNat heq
    rw [hnat, UInt8.toNat_ofNat', Nat.mod_eq_of_lt hn] at hval
    omega
  refine ⟨if_pos hsmall, ?_, ?_, hne 0x2D (by omega) (by omega), hne 0x2B (by omega) (by omega),
    hnat⟩
  · simp only [isDigit, byteOf, Bool.and_eq_true, decide_eq_true_eq, UInt8.le_iff_toNat_le, hnat]
    exact ⟨hlow, hhigh⟩
  · simp only [isSpace, Bool.or_eq_false_iff, Bool.and_eq_false_iff, decide_eq_false_iff_not,
      UInt8.le_iff_toNat_le, hnat]
    refine ⟨hne 0x20 (by omega) (by omega), .inr ?_⟩
    exact Nat.not_le.mpr (Nat.lt_of_lt_of_le (by decide) hlow)

theorem atoiFrom_digits {d : List UInt16} (h : ∀ c ∈ d, 0x30 ≤ c ∧ c ≤ 0x39) {v : ℕ}
    (hv : v ≤ intMax) :
    atoiFrom v (d.map fun c => if c < 0x80 then c.toUInt8 else byteOf '?') =
      if numberFrom v d ≤ intMax then some (numberFrom v d) else none := by
  induction d generalizing v with
  | nil =>
    rw [numberFrom, List.foldl_nil, if_pos hv]
    rfl
  | cons c d ih =>
    obtain ⟨hascii, hdigit, -, -, -, hnat⟩ := asciiDigit (h c List.mem_cons_self)
    have hstep : numberFrom v (c :: d) = numberFrom (v * 10 + (c.toNat - 0x30)) d := rfl
    rw [List.map_cons, hascii, atoiFrom, if_pos hdigit, hstep, hnat]
    have hzero : (byteOf '0').toNat = 0x30 := rfl
    simp only [hzero]
    split
    · next hnext => exact ih (fun c hc => h c (List.mem_cons_of_mem _ hc)) hnext
    · next hover =>
      have hle := le_numberFrom (v * 10 + (c.toNat - 0x30)) d
      rw [if_neg (by omega)]

/-- `atoi` returns the number in the characters copied, when that is an `int`. -/
theorem atoi_toAscii {d : List UInt16} (h : IsDecimal d) :
    atoi (toAscii d 16) =
      if copiedNumber d ≤ intMax then some (Int.ofNat (copiedNumber d)) else none := by
  obtain ⟨c, rest, rfl⟩ := List.exists_cons_of_ne_nil h.1
  obtain ⟨hascii, -, hspace, hminus, hplus, -⟩ := asciiDigit (h.2 c List.mem_cons_self)
  have hdigits : ∀ x ∈ (c :: rest).take (16 - 1), 0x30 ≤ x ∧ x ≤ 0x39 := fun x hx =>
    h.2 x (List.mem_of_mem_take hx)
  have hatoi := atoiFrom_digits hdigits (v := 0) (Nat.zero_le _)
  have hcons : toAscii (c :: rest) 16 =
      c.toUInt8 :: (rest.take 14).map fun c => if c < 0x80 then c.toUInt8 else byteOf '?' := by
    rw [toAscii, List.take_succ_cons, List.map_cons, hascii]
  rw [← toAscii, ← numberWritten, ← copiedNumber] at hatoi
  rw [atoi, hcons, List.dropWhile_cons_of_neg (by simp [hspace])]
  split
  · next heq => exact absurd (List.cons.inj heq).1 hminus
  · next heq => exact absurd (List.cons.inj heq).1 hplus
  · rw [← hcons, hatoi]
    split <;> rfl

/-! ## The walk -/

/-- The cast of what `atoi` returned. -/
def portOf (d : List UInt16) : UInt16 := UInt16.ofNat (copiedNumber d)

/-- A walk that read the values `ports`, to the end or not, from a port of `port` on. -/
structure Walked (ports : List (List UInt16)) (ok : Bool) (port : UInt16)
    (result : Option (Option Settings)) : Prop where
  overflow : (∃ v ∈ ports, intMax < copiedNumber v) → result = none
  usage : (∀ v ∈ ports, copiedNumber v ≤ intMax) → ok = false → result = some none
  port : (∀ v ∈ ports, copiedNumber v ≤ intMax) → ok = true →
    ∃ cfg, result = some (some cfg) ∧ cfg.port = ports.foldl (fun _ v => portOf v) port

/-- A walk that ends with the usage message before it reads any value. -/
theorem Walked.rejected (port : UInt16) : Walked [] false port (some none) where
  overflow h := by simp at h
  usage _ _ := rfl
  port _ hok := by cases hok

/-- One more value in front, of a number that is an `int`. -/
theorem Walked.cons {ports : List (List UInt16)} {ok : Bool} {port : UInt16}
    {result : Option (Option Settings)} {v : List UInt16} (hv : copiedNumber v ≤ intMax)
    (h : Walked ports ok (portOf v) result) : Walked (v :: ports) ok port result where
  overflow hover := by
    obtain ⟨w, hw, hlt⟩ := hover
    rcases List.mem_cons.mp hw with rfl | hw
    · exact absurd hv (Nat.not_le.mpr hlt)
    · exact h.overflow ⟨w, hw, hlt⟩
  usage hall := h.usage fun w hw => hall w (List.mem_cons_of_mem v hw)
  port hall := h.port fun w hw => hall w (List.mem_cons_of_mem v hw)

/-- The options other than `-p` leave the port alone. -/
theorem setOption_other {letter : UInt16} (hne : letter ≠ 0x70)
    (hletter : letter ∈ ([0x70, 0x75, 0x77, 0x73, 0x6F] : List UInt16)) (value : List UInt16)
    (cfg : Settings) :
    ∃ cfg', setOption letter value cfg = some (some cfg') ∧ cfg'.port = cfg.port := by
  simp only [List.mem_cons, List.not_mem_nil, or_false] at hletter
  rcases hletter with rfl | rfl | rfl | rfl | rfl
  · exact absurd rfl hne
  all_goals exact ⟨_, rfl, rfl⟩

theorem setOption_port {value : List UInt16} (h : IsDecimal value) (cfg : Settings) :
    setOption 0x70 value cfg =
      if copiedNumber value ≤ intMax then some (some { cfg with port := portOf value })
      else none := by
  rw [setOption, if_pos rfl, atoi_toAscii h]
  split
  · rw [Option.bind_eq_bind, Option.bind_some]
    rfl
  · rfl

theorem setOption_unknown {letter : UInt16}
    (hletter : letter ∉ ([0x70, 0x75, 0x77, 0x73, 0x6F] : List UInt16)) (value : List UInt16)
    (cfg : Settings) : setOption letter value cfg = some none := by
  simp only [List.mem_cons, List.not_mem_nil, or_false, not_or] at hletter
  obtain ⟨hp, hu, hw, hs, ho⟩ := hletter
  rw [setOption, if_neg hp, if_neg hu, if_neg hw, if_neg hs, if_neg ho]
  rfl

/-- An option with a value. -/
theorem parseOptions_value {arg : List UInt16} (value : List UInt16)
    (args : List (List UInt16)) (cfg : Settings)
    (hdash : ¬ arg.headD 0 ≠ 0x2D) (husage : ¬ (arg.getD 1 0 = 0x68 ∨ arg.getD 1 0 = 0x3F))
    (hdebug : ¬ arg.getD 1 0 = 0x64) :
    parseOptions (arg :: value :: args) cfg =
      (setOption (arg.getD 1 0) value cfg).bind fun out =>
        match out with
        | none => some none
        | some cfg => parseOptions args cfg := by
  rw [parseOptions.eq_def]
  exact (if_neg hdash).trans ((if_neg husage).trans (if_neg hdebug))

/-- What the loop of `ParseArgs` leaves in `Port`. -/
theorem parseOptions_port (args : List (List UInt16)) (cfg : Settings)
    (hdec : ∀ v ∈ portValues args, IsDecimal v) :
    Walked (portValues args) (options args).2 cfg.port (parseOptions args cfg) := by
  induction args using options.induct generalizing cfg with
  | case1 =>
    refine ⟨fun h => ?_, fun _ hok => ?_, fun _ _ => ⟨cfg, rfl, rfl⟩⟩
    · simp [portValues, options] at h
    · cases hok
  | case2 arg args hdash ih =>
    have hopts : options (arg :: args) = options args := by
      rw [options.eq_def]
      exact if_pos hdash
    have hparse : parseOptions (arg :: args) cfg = parseOptions args cfg := by
      rw [parseOptions.eq_def]
      exact if_pos hdash
    rw [portValues, hopts] at hdec ⊢
    rw [hparse]
    exact ih cfg hdec
  | case3 arg args hdash husage =>
    have hopts : options (arg :: args) = ([], false) := by
      rw [options.eq_def]
      exact (if_neg hdash).trans (if_pos husage)
    have hparse : parseOptions (arg :: args) cfg = some none := by
      rw [parseOptions.eq_def]
      exact (if_neg hdash).trans (if_pos husage)
    rw [portValues, hopts, hparse]
    exact Walked.rejected cfg.port
  | case4 arg args hdash husage hdebug ih =>
    have hopts : options (arg :: args) = options args := by
      rw [options.eq_def]
      exact (if_neg hdash).trans ((if_neg husage).trans (if_pos hdebug))
    have hparse : parseOptions (arg :: args) cfg =
        parseOptions args { cfg with debug := true } := by
      rw [parseOptions.eq_def]
      exact (if_neg hdash).trans ((if_neg husage).trans (if_pos hdebug))
    rw [portValues, hopts] at hdec ⊢
    rw [hparse]
    exact ih { cfg with debug := true } hdec
  | case5 arg hdash husage hdebug =>
    have hopts : options [arg] = ([], false) := by
      rw [options.eq_def]
      exact (if_neg hdash).trans ((if_neg husage).trans (if_neg hdebug))
    have hparse : parseOptions [arg] cfg = some none := by
      rw [parseOptions.eq_def]
      exact (if_neg hdash).trans ((if_neg husage).trans (if_neg hdebug))
    rw [portValues, hopts, hparse]
    exact Walked.rejected cfg.port
  | case6 arg hdash husage hdebug value args hletter ih =>
    have hopts : options (arg :: value :: args) =
        ((arg.getD 1 0, value) :: (options args).1, (options args).2) := by
      rw [options.eq_def]
      exact (if_neg hdash).trans ((if_neg husage).trans ((if_neg hdebug).trans (if_pos hletter)))
    have hparse := parseOptions_value value args cfg hdash husage hdebug
    rw [portValues, hopts] at hdec ⊢
    rw [hparse]
    by_cases hport : arg.getD 1 0 = 0x70
    · -- `-p`: the walk goes on with the new port, unless `atoi` overflows
      have hvalue : portOption (arg.getD 1 0, value) = some value := if_pos hport
      rw [List.filterMap_cons_some hvalue] at hdec ⊢
      rw [hport, setOption_port (hdec value List.mem_cons_self)]
      have hrest := fun cfg => ih cfg fun v hv => hdec v (List.mem_cons_of_mem value hv)
      by_cases hfits : copiedNumber value ≤ intMax
      · rw [if_pos hfits]
        exact Walked.cons hfits (hrest { cfg with port := portOf value })
      · rw [if_neg hfits]
        exact ⟨fun _ => rfl, fun hall => absurd (hall value List.mem_cons_self) hfits,
          fun hall => absurd (hall value List.mem_cons_self) hfits⟩
    · -- any other option leaves the port alone
      have hnone : portOption (arg.getD 1 0, value) = none := if_neg hport
      rw [List.filterMap_cons_none hnone] at hdec ⊢
      obtain ⟨cfg', hset, hsame⟩ := setOption_other hport hletter value cfg
      rw [hset, ← hsame]
      exact ih cfg' hdec
  | case7 arg hdash husage hdebug value args hletter =>
    have hopts : options (arg :: value :: args) = ([], false) := by
      rw [options.eq_def]
      exact (if_neg hdash).trans ((if_neg husage).trans ((if_neg hdebug).trans (if_neg hletter)))
    have hparse := parseOptions_value value args cfg hdash husage hdebug
    rw [portValues, hopts, hparse, setOption_unknown hletter]
    exact Walked.rejected cfg.port

/-! ## The port that is left -/

/-- `ParseArgs` leaves the number written in `d`, or the default where that is no port; a
command line that is rejected is no matter. -/
def PortRight (d : List UInt16) : Option (Option Settings) → Prop
  | none => False
  | some none => True
  | some (some cfg) =>
      cfg.port.toNat =
        if 1 ≤ numberWritten d ∧ numberWritten d ≤ 65535 then numberWritten d
        else sshDefaultPort.toNat

/-- The copied digits, in 16 bits, say the same as all of them. -/
def PortKept (d : List UInt16) : Prop :=
  if 1 ≤ numberWritten d ∧ numberWritten d ≤ 65535 then
    copiedNumber d = numberWritten d ∨
      copiedNumber d = 0 ∧ numberWritten d = sshDefaultPort.toNat
  else
    copiedNumber d % 2 ^ 16 = 0 ∨ copiedNumber d % 2 ^ 16 = sshDefaultPort.toNat

theorem copiedNumber_le (d : List UInt16) : copiedNumber d ≤ numberWritten d := by
  have hsplit : numberWritten d = numberFrom (copiedNumber d) (d.drop (16 - 1)) := by
    rw [copiedNumber, numberWritten, numberWritten, numberFrom, numberFrom, numberFrom,
      ← List.foldl_append, List.take_append_drop]
  rw [hsplit]
  exact le_numberFrom _ _

/-- The test for zero behind the loop. -/
theorem portRight_iff {d : List UInt16} {cfg : Settings} (hport : cfg.port = portOf d) :
    PortRight d (some (some (if cfg.port = 0 then { cfg with port := sshDefaultPort } else cfg))) ↔
      PortKept d := by
  have hnat : cfg.port.toNat = copiedNumber d % 2 ^ 16 := by
    rw [hport, portOf, UInt16.toNat_ofNat']
  have hzero : cfg.port = 0 ↔ copiedNumber d % 2 ^ 16 = 0 := by
    rw [← hnat, ← UInt16.toNat_inj]
    rfl
  have hle := copiedNumber_le d
  have hdefault : sshDefaultPort.toNat = 22 := rfl
  have hleft : (if cfg.port = 0 then { cfg with port := sshDefaultPort } else cfg).port.toNat =
      if copiedNumber d % 2 ^ 16 = 0 then 22 else copiedNumber d % 2 ^ 16 := by
    by_cases h : cfg.port = 0
    · rw [if_pos h, if_pos (hzero.mp h)]
      rfl
    · rw [if_neg h, if_neg fun hz => h (hzero.mpr hz), hnat]
  rw [PortRight, PortKept, hleft, hdefault]
  split <;> split <;> omega

theorem commandArgs_nil (stack : ArgBuf) : commandArgs stack [] = some [] := by
  obtain ⟨after, hcopy⟩ := @strCpy16_options [] [] stack (by simp)
    (by decide) (.inl rfl)
  have hrun : tokenize argvSize ⟨[] ++ 0 :: after, 0, []⟩ = some ⟨[] ++ 0 :: after, 0, []⟩ :=
    tokenize_end [] after argvSize []
  rw [List.append_nil] at hcopy
  rw [commandArgs]
  simp only [hcopy]
  rw [hrun]
  rfl

theorem parseArgs_some {stack : ArgBuf} {opts : List UInt16} {args : List (List UInt16)}
    (hargs : commandArgs stack opts = some args) (hne : opts ≠ []) :
    parseArgs stack (some opts) = (parseOptions args defaultSettings).bind fun out =>
      some (out.map fun cfg =>
        if cfg.port = 0 then { cfg with port := sshDefaultPort } else cfg) := by
  have hlength : ¬ opts.length < 1 := by
    have hpos := List.length_pos_of_ne_nil hne
    omega
  rw [parseArgs]
  simp only [if_neg hlength, hargs, Option.bind_eq_bind, Option.bind_some]
  refine congrArg _ (funext fun out => ?_)
  cases out with
  | none => rfl
  | some cfg =>
    by_cases h : cfg.port = 0
    · simp [h]
    · simp [h]

theorem foldl_last {α β : Type} {f : α → β} {l : List α} {a : α} (h : l.getLast? = some a)
    (b : β) : l.foldl (fun _ x => f x) b = f a := by
  obtain ⟨init, rfl⟩ := List.getLast?_eq_some_iff.mp h
  rw [List.foldl_append]
  rfl

/-- With decimal numbers behind `-p`, `Port` is right for the last of them exactly when no
number overflows an `int` and the last survives the copy and the cast, unless the command
line is rejected anyway. -/
theorem parseArgs_port_iff (stack : ArgBuf) (opts : List UInt16) {args : List (List UInt16)}
    (hargs : commandArgs stack opts = some args) (hdec : ∀ v ∈ portValues args, IsDecimal v)
    {d : List UInt16} (hlast : (portValues args).getLast? = some d) :
    PortRight d (parseArgs stack (some opts)) ↔
      (∀ v ∈ portValues args, copiedNumber v ≤ intMax) ∧
        ((options args).2 = true → PortKept d) := by
  have hne : opts ≠ [] := by
    rintro rfl
    rw [commandArgs_nil] at hargs
    cases hargs
    cases hlast
  have hwalk := parseOptions_port args defaultSettings hdec
  rw [parseArgs_some hargs hne]
  by_cases hfits : ∀ v ∈ portValues args, copiedNumber v ≤ intMax
  · cases hok : (options args).2 with
    | false =>
      rw [hwalk.usage hfits hok]
      exact ⟨fun _ => ⟨hfits, fun h => by cases h⟩, fun _ => trivial⟩
    | true =>
      obtain ⟨cfg, hparse, hport⟩ := hwalk.port hfits hok
      rw [foldl_last hlast] at hport
      rw [hparse]
      exact (portRight_iff hport).trans ⟨fun h => ⟨hfits, fun _ => h⟩, fun h => h.2 rfl⟩
  · have hover : ∃ v ∈ portValues args, intMax < copiedNumber v := by
      simpa only [not_forall, Nat.not_le, exists_prop] using hfits
    rw [hwalk.overflow hover]
    exact ⟨fun h => h.elim, fun h => absurd h.1 hfits⟩

def zeroStack : ArgBuf := ⟨List.replicate argBufSize 0, List.length_replicate⟩

/-- Port 1 for `-p 65537`. -/
theorem parseArgs_third_port :
    IsDecimal (wide "65537") ∧
      ¬ PortRight (wide "65537") (parseArgs zeroStack (some (wide "-p 65537"))) := by
  have hdec : IsDecimal (wide "65537") := ⟨by simp [wide, ascii], by simp [wide, ascii]⟩
  have hargs : commandArgs zeroStack (wide "-p 65537") = some [wide "-p", wide "65537"] := by
    decide +kernel
  have hparse : parseOptions [wide "-p", wide "65537"] defaultSettings =
      some (some { defaultSettings with port := 1 }) := rfl
  refine ⟨hdec, ?_⟩
  rw [parseArgs_some hargs (by simp [wide, ascii]), hparse]
  intro hright
  have hone : (1 : ℕ) = 22 := hright
  cases hone

/-- A port with leading zeros, behind another one. -/
theorem parseArgs_port_zeros :
    PortRight (wide "00022") (parseArgs zeroStack (some (wide "-p 23 -p 00022"))) := by
  have hargs : commandArgs zeroStack (wide "-p 23 -p 00022") =
      some [wide "-p", wide "23", wide "-p", wide "00022"] := by
    decide +kernel
  have hports : portValues [wide "-p", wide "23", wide "-p", wide "00022"] =
      [wide "23", wide "00022"] := rfl
  have hdec : ∀ v ∈ [wide "23", wide "00022"], IsDecimal v := by simp [IsDecimal, wide, ascii]
  have hfits : ∀ v ∈ [wide "23", wide "00022"], copiedNumber v ≤ intMax := by
    simp only [List.forall_mem_cons, List.not_mem_nil, false_imp_iff, implies_true, and_true]
    decide +kernel
  have hkept : PortKept (wide "00022") := by
    unfold PortKept
    decide +kernel
  rw [← hports] at hdec hfits
  have hlast : (portValues [wide "-p", wide "23", wide "-p", wide "00022"]).getLast? =
      some (wide "00022") := by
    rw [hports]
    rfl
  have hiff := parseArgs_port_iff zeroStack (wide "-p 23 -p 00022") hargs hdec hlast
  rw [hiff]
  exact ⟨hfits, fun _ => hkept⟩

end EfiSshServer
