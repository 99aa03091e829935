import EfiSshServer.CommandLine

/-!
# Cutting a command line into arguments

A `Line` is a text that renders a list of arguments, each in double quotes or bare, with
blanks between them.  The tokeniser keeps what it has passed: behind a prefix `passed` of
the buffer it only writes at or after its position, so an argument that it has found
stays as it is (`tokenize_line`, by induction on the arguments).
-/

namespace EfiSshServer

variable {passed x text after : List UInt16}

/-! ## Lines -/

/-- An argument: a string without double quotes. -/
structure Argument where
  chars : List UInt16
  plain : ∀ c ∈ chars, c ≠ 0 ∧ c ≠ doubleQuote

/-- How an argument can be written. -/
inductive Rendering : Argument → List UInt16 → Prop
  | quoted (a : Argument) : Rendering a (doubleQuote :: (a.chars ++ [doubleQuote]))
  | bare (a : Argument) (hne : a.chars ≠ []) (hbare : ∀ c ∈ a.chars, isBlank c = false) :
      Rendering a a.chars

/-- A text that renders a list of arguments. -/
inductive Line : List Argument → List UInt16 → Prop
  | blanks {blanks : List UInt16} (hblanks : ∀ c ∈ blanks, isBlank c = true) : Line [] blanks
  | cons {blanks t rest : List UInt16} {a : Argument} {args : List Argument}
      (hblanks : ∀ c ∈ blanks, isBlank c = true) (ha : Rendering a t) (hrest : Line args rest)
      (hsep : args ≠ [] → ∃ c tail, rest = c :: tail ∧ isBlank c = true) :
      Line (a :: args) (blanks ++ (t ++ rest))

theorem isBlank_ne_zero {c : UInt16} (h : isBlank c = true) : c ≠ 0 := by
  rintro rfl
  cases h

theorem isBlank_doubleQuote : isBlank doubleQuote = false := rfl

theorem Rendering.ne_zero {a : Argument} {t : List UInt16} (h : Rendering a t) :
    ∀ c ∈ t, c ≠ 0 := by
  cases h with
  | quoted =>
    intro c hc
    rcases List.mem_cons.mp hc with rfl | hc
    · decide
    · rcases List.mem_append.mp hc with hc | hc
      · exact (a.plain c hc).1
      · rw [List.mem_singleton.mp hc]
        decide
  | bare => exact fun c hc => (a.plain c hc).1

theorem Line.ne_zero {args : List Argument} (h : Line args text) : ∀ c ∈ text, c ≠ 0 := by
  induction h with
  | blanks hblanks => exact fun c hc => isBlank_ne_zero (hblanks c hc)
  | cons hblanks ha _ _ ih =>
    intro c hc
    rcases List.mem_append.mp hc with hc | hc
    · exact isBlank_ne_zero (hblanks c hc)
    · exact (List.mem_append.mp hc).elim (ha.ne_zero c) (ih c)

/-- The first character of a rendering is no blank. -/
theorem Rendering.head {a : Argument} {t : List UInt16} (h : Rendering a t) :
    ∃ c tail, t = c :: tail ∧ isBlank c = false := by
  cases h with
  | quoted => exact ⟨_, _, rfl, isBlank_doubleQuote⟩
  | bare hne hbare =>
    obtain ⟨c, tail, hchars⟩ := List.exists_cons_of_ne_nil hne
    exact ⟨c, tail, hchars, hbare c (hchars ▸ List.mem_cons_self)⟩

/-- Without its first character, when this is a blank, a text says the same. -/
theorem Line.tail {args : List Argument} {c : UInt16} (h : Line args (c :: text))
    (hc : isBlank c = true) : Line args text := by
  generalize hfull : c :: text = full at h
  cases h with
  | blanks hblanks =>
    exact .blanks fun d hd => hblanks d (hfull ▸ List.mem_cons_of_mem c hd)
  | @cons blanks t rest a args hblanks ha hrest hsep =>
    cases blanks with
    | nil =>
      obtain ⟨d, tail, rfl, hd⟩ := ha.head
      cases hfull
      rw [hc] at hd
      cases hd
    | cons b blanks =>
      cases hfull
      exact .cons (fun d hd => hblanks d (List.mem_cons_of_mem _ hd)) ha hrest hsep

/-! ## The scans -/

theorem getElem?_passed (c : UInt16) : (passed ++ c :: after)[passed.length]? = some c := by
  simp

/-- A scan over `x`, up to the `c` behind it. -/
theorem skipWhile_eq {run : UInt16 → Bool} {c : UInt16} {p : ℕ} (hp : p = passed.length)
    (hx : ∀ d ∈ x, run d = true) (hc : run c = false) :
    skipWhile run (passed ++ (x ++ c :: after)) p = some (p + x.length) := by
  subst hp
  have htake : ((passed ++ (x ++ c :: after)).drop passed.length).takeWhile run = x := by
    rw [List.drop_left, List.takeWhile_append_of_pos hx, List.takeWhile_cons_of_neg (by simp [hc]),
      List.append_nil]
  rw [skipWhile]
  simp only [htake]
  exact if_pos (by simp)

/-- The string at the end of a prefix. -/
theorem string16_eq (hx : ∀ d ∈ x, d ≠ 0) {p : ℕ} (hp : p = passed.length) :
    string16 (passed ++ (x ++ 0 :: after)) p = x := by
  subst hp
  rw [string16, List.drop_left, List.takeWhile_append_of_pos (by simpa using hx),
    List.takeWhile_cons_of_neg (by simp), List.append_nil]

/-! ## The loop -/

/-- What is left of a line at a token's end: nothing, or a blank and a line again. -/
theorem Line.next {args : List Argument} {rest : List UInt16} (h : Line args rest)
    (hsep : args ≠ [] → ∃ c tail, rest = c :: tail ∧ isBlank c = true) :
    args = [] ∧ rest = [] ∨ ∃ c tail, rest = c :: tail ∧ isBlank c = true ∧ Line args tail := by
  cases h with
  | blanks hblanks =>
    cases rest with
    | nil => exact .inl ⟨rfl, rfl⟩
    | cons c tail =>
      have hc := hblanks c List.mem_cons_self
      exact .inr ⟨c, tail, rfl, hc, (Line.blanks hblanks).tail hc⟩
  | cons hblanks ha hrest hsep' =>
    obtain ⟨c, tail, heq, hc⟩ := hsep (List.cons_ne_nil _ _)
    exact .inr ⟨c, tail, heq, hc, Line.tail (heq ▸ .cons hblanks ha hrest hsep') hc⟩

variable (passed after) in
/-- At the end of the text the loop stops. -/
theorem tokenize_end (room : ℕ) (argv : List ℕ) :
    tokenize room ⟨passed ++ 0 :: after, passed.length, argv⟩ =
      some ⟨passed ++ 0 :: after, passed.length, argv⟩ := by
  cases room with
  | zero => rfl
  | succ room => simp [tokenize]

/-- One round, up to the end of a token of which the scan is known. -/
theorem tokenize_round {room : ℕ} {argv : List ℕ} {blanks body : List UInt16} {c : UInt16}
    (hblanks : ∀ d ∈ blanks, isBlank d = true) (hc : isBlank c = false) (hzero : c ≠ 0) :
    tokenize (room + 1) ⟨passed ++ (blanks ++ c :: body), passed.length, argv⟩ =
      (let t : Tokens := ⟨passed ++ (blanks ++ c :: body), passed.length, argv⟩
      let p := passed.length + blanks.length
      if c = doubleQuote then
        (skipWhile (fun c => c ≠ 0 && c ≠ doubleQuote) t.buf (p + 1)).bind fun stop =>
          tokenize room (endToken t (p + 1) stop)
      else
        (skipWhile (fun c => c ≠ 0 && !isBlank c) t.buf p).bind fun stop =>
          tokenize room (endToken t p stop)) := by
  obtain ⟨d, tail, hfirst, hd⟩ : ∃ d tail, blanks ++ c :: body = d :: tail ∧ d ≠ 0 := by
    cases blanks with
    | nil => exact ⟨c, body, rfl, hzero⟩
    | cons b blanks =>
      exact ⟨b, _, rfl, isBlank_ne_zero (hblanks b List.mem_cons_self)⟩
  have hhead : (passed ++ (blanks ++ c :: body))[passed.length]? = some d := by
    rw [hfirst, getElem?_passed]
  have hnext : (passed ++ (blanks ++ c :: body))[passed.length + blanks.length]? = some c := by
    rw [← List.append_assoc, ← List.length_append, getElem?_passed]
  rw [tokenize]
  simp only [hhead, skipWhile_eq rfl hblanks hc, hnext, Option.bind_eq_bind, Option.bind_some,
    if_neg hd, if_neg hzero]

/-- The rest of a round: `x` from the position behind `lead` on, and the character that
ends it is overwritten unless it is the NUL. -/
theorem scan_endToken {run : UInt16 → Bool} {lead : List UInt16} {c : UInt16} {room q : ℕ}
    {argv : List ℕ} (hx : ∀ d ∈ x, run d = true) (hc : run c = false) :
    ((skipWhile run (lead ++ (x ++ c :: after)) lead.length).bind fun stop =>
        tokenize room (endToken ⟨lead ++ (x ++ c :: after), q, argv⟩ lead.length stop)) =
      tokenize room ⟨lead ++ (x ++ 0 :: after), (lead ++ x).length + if c = 0 then 0 else 1,
        argv ++ [lead.length]⟩ := by
  have hat : (lead ++ (x ++ c :: after)).getD (lead ++ x).length 0 = c := by
    rw [← List.append_assoc]
    simp
  rw [skipWhile_eq rfl hx hc, Option.bind_some, ← List.length_append, endToken]
  simp only [hat]
  by_cases hzero : c = 0
  · rw [if_neg (not_not.mpr hzero), if_pos hzero, hzero, Nat.add_zero]
  · rw [if_pos hzero, if_neg hzero]
    congr 2
    rw [← List.append_assoc, ← List.append_assoc]
    simp

theorem tokenize_quoted {room : ℕ} {argv : List ℕ} {blanks : List UInt16}
    (hblanks : ∀ d ∈ blanks, isBlank d = true) (hx : ∀ d ∈ x, d ≠ 0 ∧ d ≠ doubleQuote) :
    tokenize (room + 1) ⟨passed ++ (blanks ++ doubleQuote :: (x ++ doubleQuote :: after)),
        passed.length, argv⟩ =
      tokenize room ⟨passed ++ (blanks ++ [doubleQuote]) ++ (x ++ 0 :: after),
        (passed ++ (blanks ++ [doubleQuote]) ++ x).length + 1,
        argv ++ [(passed ++ (blanks ++ [doubleQuote])).length]⟩ := by
  have hshape : passed ++ (blanks ++ doubleQuote :: (x ++ doubleQuote :: after)) =
      passed ++ (blanks ++ [doubleQuote]) ++ (x ++ doubleQuote :: after) := by
    simp
  have hstart : passed.length + blanks.length + 1 =
      (passed ++ (blanks ++ [doubleQuote])).length := by
    simp [Nat.add_assoc]
  rw [tokenize_round hblanks isBlank_doubleQuote (by decide)]
  simp only [if_true, hshape, hstart]
  exact scan_endToken (c := doubleQuote) (fun d hd => by simpa using hx d hd) rfl

variable (passed after) in
theorem tokenize_bare (room : ℕ) (argv : List ℕ) {blanks : List UInt16} {c : UInt16}
    (hblanks : ∀ d ∈ blanks, isBlank d = true) (hne : x ≠ [])
    (hx : ∀ d ∈ x, d ≠ 0 ∧ d ≠ doubleQuote ∧ isBlank d = false)
    (hc : c = 0 ∨ isBlank c = true) :
    tokenize (room + 1) ⟨passed ++ (blanks ++ (x ++ c :: after)), passed.length, argv⟩ =
      tokenize room ⟨passed ++ blanks ++ (x ++ 0 :: after),
        (passed ++ blanks ++ x).length + if c = 0 then 0 else 1,
        argv ++ [(passed ++ blanks).length]⟩ := by
  obtain ⟨first, tail, rfl⟩ := List.exists_cons_of_ne_nil hne
  obtain ⟨hzero, hquote, hblank⟩ := hx first List.mem_cons_self
  have hstop : (c ≠ 0 && !isBlank c) = false := by
    rcases hc with rfl | hc
    · rfl
    · simp [hc]
  rw [List.cons_append, tokenize_round hblanks hblank hzero]
  simp only [if_neg hquote]
  rw [← List.cons_append, ← List.append_assoc, ← List.length_append]
  exact scan_endToken (fun d hd => by simpa using ⟨(hx d hd).1, (hx d hd).2.2⟩) hstop

variable (passed after) in
/-- Over trailing blanks. -/
theorem tokenize_blanks (room : ℕ) (argv : List ℕ) {blanks : List UInt16}
    (hblanks : ∀ d ∈ blanks, isBlank d = true) :
    ∃ p, tokenize room ⟨passed ++ (blanks ++ 0 :: after), passed.length, argv⟩ =
      some ⟨passed ++ (blanks ++ 0 :: after), p, argv⟩ := by
  cases blanks with
  | nil => exact ⟨_, tokenize_end passed after room argv⟩
  | cons b tail =>
    cases room with
    | zero => exact ⟨_, rfl⟩
    | succ room =>
      have hb := isBlank_ne_zero (hblanks b List.mem_cons_self)
      have hend : (passed ++ (b :: tail ++ 0 :: after))[passed.length + (b :: tail).length]? =
          some 0 := by
        rw [← List.append_assoc, ← List.length_append, getElem?_passed]
      refine ⟨passed.length + (b :: tail).length, ?_⟩
      rw [tokenize]
      simp only [List.cons_append, getElem?_passed, Option.bind_eq_bind, Option.bind_some,
        if_neg hb]
      rw [← List.cons_append, skipWhile_eq rfl hblanks rfl, Option.bind_some, hend,
        Option.bind_some, if_pos rfl]
      rfl

variable (after) in
/-- The tokeniser on a line behind `passed`: it leaves `passed` alone, and the positions
that it adds are those of the arguments. -/
theorem tokenize_line {args : List Argument} {room : ℕ} (h : Line args text)
    (hroom : args.length ≤ room) (passed : List UInt16) (argv : List ℕ) :
    ∃ buf p starts,
      tokenize room ⟨passed ++ (text ++ 0 :: after), passed.length, argv⟩ =
          some ⟨passed ++ buf, p, argv ++ starts⟩ ∧
        starts.map (string16 (passed ++ buf)) = args.map Argument.chars := by
  induction args generalizing text room passed argv with
  | nil =>
    cases h with
    | blanks hblanks =>
      obtain ⟨p, hp⟩ := tokenize_blanks passed after room argv hblanks
      exact ⟨text ++ 0 :: after, p, [], by rwa [List.append_nil], rfl⟩
  | cons a args ih =>
    obtain ⟨room, rfl⟩ : ∃ n, room = n + 1 := Nat.exists_eq_add_one_of_ne_zero (by
      rw [List.length_cons] at hroom
      omega)
    have hroom' : args.length ≤ room := Nat.le_of_succ_le_succ hroom
    -- behind a token from `start` on, whose terminator is in place
    have hrest : ∀ (lead : List UInt16) {rest : List UInt16}, Line args rest →
        ∃ buf p starts,
          tokenize room ⟨lead ++ (a.chars ++ 0 :: (rest ++ 0 :: after)),
              (lead ++ a.chars).length + 1, argv ++ [lead.length]⟩ =
            some ⟨lead ++ (a.chars ++ 0 :: buf), p, argv ++ starts⟩ ∧
          starts.map (string16 (lead ++ (a.chars ++ 0 :: buf))) =
            (a :: args).map Argument.chars := by
      intro lead rest hline
      obtain ⟨buf, p, starts, hrun, hstrings⟩ :=
        ih hline hroom' (lead ++ a.chars ++ [0]) (argv ++ [lead.length])
      have hshape : ∀ l, lead ++ a.chars ++ [0] ++ l = lead ++ (a.chars ++ 0 :: l) := by
        intro l
        simp
      have hlength : (lead ++ a.chars ++ [0]).length = (lead ++ a.chars).length + 1 :=
        List.length_append
      rw [hshape, hshape, hlength, List.append_assoc argv] at hrun
      rw [hshape] at hstrings
      refine ⟨buf, p, lead.length :: starts, hrun, ?_⟩
      rw [List.map_cons, List.map_cons, hstrings,
        string16_eq (fun d hd => (a.plain d hd).1) rfl]
    cases h with
    | @cons blanks t rest _ _ hblanks ha hline hsep =>
      cases ha with
      | quoted =>
        obtain ⟨buf, p, starts, hrun, hstrings⟩ :=
          hrest (passed ++ (blanks ++ [doubleQuote])) hline
        have hshape : ∀ l, passed ++ (blanks ++ [doubleQuote]) ++ l =
            passed ++ (blanks ++ doubleQuote :: l) := by
          intro l
          simp
        rw [← tokenize_quoted hblanks a.plain, hshape] at hrun
        rw [hshape] at hstrings
        exact ⟨_, p, starts, by simpa using hrun, hstrings⟩
      | bare hne hbare =>
        have hx : ∀ d ∈ a.chars, d ≠ 0 ∧ d ≠ doubleQuote ∧ isBlank d = false := fun d hd =>
          ⟨(a.plain d hd).1, (a.plain d hd).2, hbare d hd⟩
        rcases hline.next hsep with ⟨rfl, rfl⟩ | ⟨c, tail, rfl, hc, htail⟩
        · -- the last token ends where the text does
          have hrun := tokenize_bare passed after room argv hblanks hne hx (.inl rfl)
          have hend := tokenize_end (passed ++ blanks ++ a.chars) after room
            (argv ++ [(passed ++ blanks).length])
          have hstring : string16 (passed ++ blanks ++ (a.chars ++ 0 :: after))
              (passed ++ blanks).length = a.chars := string16_eq (fun d hd => (hx d hd).1) rfl
          rw [List.append_assoc (passed ++ blanks)] at hend
          rw [if_pos rfl] at hrun
          have hall := hrun.trans hend
          rw [List.append_assoc passed blanks] at hall hstring
          refine ⟨blanks ++ (a.chars ++ 0 :: after), (passed ++ blanks ++ a.chars).length,
            [(passed ++ blanks).length], ?_, ?_⟩
          · rw [List.append_nil, List.append_assoc blanks]
            exact hall
          · rw [List.map_singleton, hstring]
            rfl
        · obtain ⟨buf, p, starts, hrun, hstrings⟩ := hrest (passed ++ blanks) htail
          have hblank := tokenize_bare passed (tail ++ 0 :: after) room argv hblanks hne hx
            (.inr hc)
          rw [if_neg (isBlank_ne_zero hc), hrun] at hblank
          rw [List.append_assoc] at hblank hstrings
          exact ⟨_, p, starts, by simpa using hblank, hstrings⟩

/-! ## The copy -/

variable (passed) in
/-- The copy, behind what is copied already, stops at the NUL or where it must. -/
theorem strCpy16From_eq {s tail : List UInt16} {room : ℕ} (hx : ∀ d ∈ x, d ≠ 0)
    (hs : s = passed ++ (x ++ tail)) (hroom : x.length ≤ room)
    (hstop : x.length = room ∨ tail.getD 0 0 = 0) (hafter : x.length < after.length) :
    strCpy16From s room passed.length (passed ++ after) =
      passed ++ (x ++ 0 :: after.drop (x.length + 1)) := by
  induction x generalizing room passed after with
  | nil =>
    obtain ⟨b, rest, rfl⟩ := List.exists_cons_of_length_pos hafter
    have hset : (passed ++ b :: rest).set passed.length 0 = passed ++ 0 :: rest := by
      simp
    cases room with
    | zero => exact hset
    | succ room =>
      have hend : s.getD passed.length 0 = 0 := by
        rcases hstop with hfull | hstop
        · cases hfull
        · rw [hs, List.nil_append, List.getD_append_right _ _ _ _ (le_refl _), Nat.sub_self, hstop]
      rw [strCpy16From, if_pos hend]
      exact hset
  | cons c x ih =>
    obtain ⟨b, rest, rfl⟩ := List.exists_cons_of_length_pos (Nat.zero_lt_of_lt hafter)
    obtain ⟨room, rfl⟩ : ∃ n, room = n + 1 := Nat.exists_eq_add_one_of_ne_zero (by
      rw [List.length_cons] at hroom
      omega)
    have hread : s.getD passed.length 0 = c := by
      rw [hs, List.getD_append_right _ _ _ _ (le_refl _), Nat.sub_self]
      rfl
    have hc : c ≠ 0 := hx c List.mem_cons_self
    have hset : (passed ++ b :: rest).set passed.length c = passed ++ [c] ++ rest := by
      simp
    have hlength : passed.length + 1 = (passed ++ [c]).length := by
      rw [List.length_append, List.length_singleton]
    rw [strCpy16From, hread, if_neg hc, hset, hlength,
      ih (passed ++ [c]) (fun d hd => hx d (List.mem_cons_of_mem c hd)) (by simpa using hs)
        (Nat.le_of_succ_le_succ hroom) (by simpa using hstop) (Nat.lt_of_succ_lt_succ hafter)]
    simp

/-- Load options that are a text with its NUL, or without, as far as they fit. -/
theorem strCpy16_options {tail : List UInt16} (stack : ArgBuf) (hx : ∀ d ∈ text, d ≠ 0)
    (hlength : text.length < argBufSize) (htail : tail = [] ∨ tail.head? = some 0) :
    ∃ after, strCpy16 stack.val (text ++ tail)
      (if (text ++ tail).length < argBufSize then (text ++ tail).length + 1 else argBufSize) =
        text ++ 0 :: after := by
  have hroom : text.length ≤ (if (text ++ tail).length < argBufSize
      then (text ++ tail).length + 1 else argBufSize) - 1 := by
    rw [List.length_append]
    split <;> omega
  have hstop : text.length = (if (text ++ tail).length < argBufSize
      then (text ++ tail).length + 1 else argBufSize) - 1 ∨ tail.getD 0 0 = 0 := by
    rcases htail with rfl | htail
    · left
      rw [List.append_nil, if_pos hlength, Nat.add_sub_cancel]
    · right
      obtain ⟨junk, rfl⟩ := List.head?_eq_some_iff.mp htail
      rfl
  exact ⟨_, strCpy16From_eq [] hx rfl hroom hstop (stack.property.symm ▸ hlength)⟩

/-! ## The round trip -/

/-- Of a line of at most 24 arguments and 511 characters, the tokeniser yields exactly
these arguments. -/
theorem commandArgs_line {args : List Argument} {tail : List UInt16} (stack : ArgBuf)
    (hline : Line args text) (hcount : args.length ≤ argvSize)
    (hlength : text.length < argBufSize) (htail : tail = [] ∨ tail.head? = some 0) :
    commandArgs stack (text ++ tail) = some (args.map Argument.chars) := by
  obtain ⟨after, hcopy⟩ := strCpy16_options stack hline.ne_zero hlength htail
  obtain ⟨buf, p, starts, hrun, hstrings⟩ :=
    tokenize_line after hline hcount [] []
  rw [commandArgs]
  simp only [hcopy]
  have hrun : tokenize argvSize ⟨text ++ 0 :: after, 0, []⟩ = some ⟨buf, p, starts⟩ := hrun
  rw [hrun, Option.bind_eq_bind, Option.bind_some]
  exact congrArg some hstrings

/-- `-o ""`, with blanks around it. -/
theorem commandArgs_line_empty :
    commandArgs ⟨List.replicate argBufSize 0xFFFF, List.length_replicate⟩
      (wide " -o \t\"\"" ++ [0]) = some [wide "-o", []] := by
  have hplain : ∀ c ∈ wide "-o", c ≠ 0 ∧ c ≠ doubleQuote := by simp [wide, ascii, doubleQuote]
  have hbare : ∀ c ∈ wide "-o", isBlank c = false := by simp [wide, ascii, isBlank]
  have hempty : Line [⟨[], by simp⟩] (wide " \t\"\"") :=
    @Line.cons [0x20, 0x09] _ [] _ _ (by simp [isBlank]) (.quoted ⟨[], by simp⟩)
      (.blanks (by simp)) fun h => absurd rfl h
  have hline : Line [⟨wide "-o", hplain⟩, ⟨[], by simp⟩] (wide " -o \t\"\"") :=
    @Line.cons [0x20] (wide "-o") _ _ _ (by simp [isBlank])
      (.bare ⟨wide "-o", hplain⟩ (by simp [wide, ascii]) hbare) hempty
      fun _ => ⟨0x20, _, rfl, rfl⟩
  exact commandArgs_line _ hline (by simp [argvSize]) (by decide) (.inr rfl)

end EfiSshServer
