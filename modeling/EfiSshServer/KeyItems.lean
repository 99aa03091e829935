import EfiSshServer.KeySequences

/-!
# What the keys of well-formed input are

Well-formed input is a list of items: characters other than ESC, and key sequences.
`expectedKeys` says which keys they are, with one look back: a line feed directly
behind a carriage return is no key of its own.

`FeedByte` looks back through `LastWasCr`, which only single-byte characters update.
Multi-byte characters and key sequences leave it set, so a line feed behind them still
counts as the second half of a line end.  `typedKeys` are the keys with this memory,
and `typed_eq_expected_iff` says when they are the right ones.
-/

namespace EfiSshServer

variable {d : Decoder}

/-! ## Items -/

inductive Item where
  | char (c : Char)
  | sequence (k : KeySequence)

namespace Item

def bytes : Item → Bytes
  | char c => String.utf8EncodeChar c
  | sequence k => k.bytes

def WellFormed : Item → Prop
  | char c => c ≠ '\x1b'
  | sequence k => k.Recognised

/-- The keys of an item, by the byte before it. -/
def keys (afterCr : Bool) : Item → List InputKey
  | char c => charKeys afterCr c
  | sequence k => [k.key]

/-- The last byte is a carriage return. -/
def endsInCr : Item → Bool
  | char c => c = '\r'
  | sequence _ => false

/-- Several bytes encode the item. -/
def isLong : Item → Bool
  | char c => 0x80 ≤ c.toNat
  | sequence _ => true

/-- `LastWasCr` behind the item. -/
def crFlag (wasCr : Bool) (i : Item) : Bool := if i.isLong then wasCr else i.endsInCr

end Item

/-- The keys that the items stand for. -/
def expectedKeys : (afterCr : Bool) → List Item → List InputKey
  | _, [] => []
  | afterCr, i :: items => i.keys afterCr ++ expectedKeys i.endsInCr items

/-- The keys that `FeedByte` makes of them. -/
def typedKeys : (wasCr : Bool) → List Item → List InputKey
  | _, [] => []
  | wasCr, i :: items => i.keys wasCr ++ typedKeys (i.crFlag wasCr) items

/-! ## The decoder on items -/

/-- An item, whatever was pending before it. -/
theorem feedBytes_item (hesc : d.esc = []) {i : Item} (hi : i.WellFormed) :
    ∃ need acc, feedBytes d i.bytes =
      ({ d with utf8Need := need, utf8Acc := acc, lastWasCr := i.crFlag d.lastWasCr },
        i.keys d.lastWasCr) := by
  cases i with
  | char c =>
      obtain ⟨acc, hfed⟩ := feedBytes_char hesc hi
      refine ⟨0, acc, ?_⟩
      rw [Item.bytes, hfed, Item.crFlag, crBehind]
      by_cases hascii : c.toNat < 0x80
      · simp [Item.isLong, Item.endsInCr, Item.keys, hascii, Nat.not_le.mpr hascii]
      · simp [Item.isLong, Item.keys, hascii, Nat.le_of_not_lt hascii]
  | sequence k =>
      refine ⟨d.utf8Need, d.utf8Acc, ?_⟩
      rw [Item.bytes, KeySequence.feedBytes_bytes hesc hi]
      rfl

theorem feedBytes_items {items : List Item} (hesc : d.esc = [])
    (hitems : ∀ i ∈ items, i.WellFormed) :
    (feedBytes d (items.flatMap Item.bytes)).2 = typedKeys d.lastWasCr items ∧
      (feedBytes d (items.flatMap Item.bytes)).1.lastWasCr =
        items.foldl (fun cr i => i.crFlag cr) d.lastWasCr := by
  induction items generalizing d with
  | nil => exact ⟨rfl, rfl⟩
  | cons i items ih =>
      obtain ⟨need, acc, hfed⟩ := feedBytes_item hesc (hitems i List.mem_cons_self)
      obtain ⟨hkeys, hflag⟩ := ih
        (d := { d with utf8Need := need, utf8Acc := acc, lastWasCr := i.crFlag d.lastWasCr })
        hesc fun j hj => hitems j (List.mem_cons_of_mem _ hj)
      rw [List.flatMap_cons, feedBytes_append, hfed]
      exact ⟨by rw [hkeys, typedKeys], hflag⟩

/-! ## When the memory is right -/

/-- A carriage return is not followed by a line feed with only items of several bytes
between them. -/
def NoStaleCr (items : List Item) : Prop :=
  ∀ before between after,
    items = before ++ .char '\r' :: (between ++ .char '\n' :: after) →
    (∀ i ∈ between, i.isLong = true) → between = []

/-- Only the keys of a line feed depend on what came before. -/
theorem Item.keys_congr {i : Item} (h : i ≠ .char '\n') (cr cr' : Bool) :
    i.keys cr = i.keys cr' := by
  cases i with
  | char c =>
      have hc : c ≠ '\n' := fun heq => h (congrArg _ heq)
      simp only [keys, charKeys, if_neg hc]
  | sequence k => rfl

theorem Item.crFlag_of_endsInCr (i : Item) (cr : Bool) (h : i.endsInCr = true) :
    i.crFlag cr = true := by
  cases i with
  | char c =>
      simp only [endsInCr, decide_eq_true_eq] at h
      subst h
      rfl
  | sequence k => cases h

/-- Every line feed that is swallowed is one key less. -/
theorem length_typedKeys_le (items : List Item) {flag prev : Bool}
    (hle : prev = true → flag = true) :
    (typedKeys flag items).length ≤ (expectedKeys prev items).length := by
  induction items generalizing flag prev with
  | nil => exact Nat.le_refl 0
  | cons i items ih =>
      have hrest := ih (i.crFlag_of_endsInCr flag)
      have hhead : (i.keys flag).length ≤ (i.keys prev).length := by
        by_cases hi : i = .char '\n'
        · subst hi
          cases flag <;> cases prev <;> simp_all [Item.keys, charKeys]
        · rw [Item.keys_congr hi flag prev]
      rw [typedKeys, expectedKeys, List.length_append, List.length_append]
      exact Nat.add_le_add hhead hrest

/-- The keys are right exactly if at every line feed the flag tells whether the byte
before it was a carriage return. -/
theorem typed_eq_expected_iff_flags (items : List Item) {flag prev : Bool}
    (hle : prev = true → flag = true) :
    typedKeys flag items = expectedKeys prev items ↔
      ∀ before after, items = before ++ .char '\n' :: after →
        before.foldl (fun cr i => i.crFlag cr) flag =
          before.foldl (fun _ i => i.endsInCr) prev := by
  induction items generalizing flag prev with
  | nil => simp [typedKeys, expectedKeys]
  | cons i items ih =>
      have hrest := ih (i.crFlag_of_endsInCr flag)
      by_cases hflag : i = .char '\n' → flag = prev
      · have hhead : i.keys flag = i.keys prev := by
          by_cases hi : i = .char '\n'
          · rw [hflag hi]
          · exact Item.keys_congr hi flag prev
        rw [typedKeys, expectedKeys, hhead, List.append_cancel_left_eq, hrest]
        constructor
        · intro h before after heq
          cases before with
          | nil => exact hflag (List.cons.inj heq).1
          | cons j before =>
              obtain ⟨rfl, htail⟩ := List.cons.inj heq
              exact h before after htail
        · intro h before after heq
          exact h (i :: before) after (by rw [heq, List.cons_append])
      · -- The flag is stale, and the keys are one short.
        obtain ⟨rfl, hne⟩ : i = .char '\n' ∧ flag ≠ prev := by
          simpa only [Classical.not_imp] using hflag
        obtain ⟨rfl, rfl⟩ : flag = true ∧ prev = false := by
          cases prev
          · exact ⟨by simpa using hne, rfl⟩
          · exact absurd (hle rfl) hne
        have hshort := length_typedKeys_le items
          ((Item.char '\n').crFlag_of_endsInCr true)
        constructor
        · intro heq
          have hlength := congrArg List.length heq
          have hswallowed : Item.keys true (.char '\n') = [] := rfl
          have hkey : (Item.keys false (.char '\n')).length = 1 := rfl
          rw [typedKeys, expectedKeys, List.length_append, List.length_append, hswallowed,
            hkey, List.length_nil] at hlength
          omega
        · intro h
          exact absurd (h [] items rfl) (by decide)

/-- The flag is set exactly behind a carriage return with items of several bytes. -/
theorem foldl_crFlag_iff (items : List Item) :
    items.foldl (fun cr i => i.crFlag cr) false = true ↔
      ∃ before between, items = before ++ .char '\r' :: between ∧
        ∀ i ∈ between, i.isLong = true := by
  induction items using List.reverseRecOn with
  | nil => simp
  | append_singleton items i ih =>
      rw [List.foldl_append, List.foldl_cons, List.foldl_nil, Item.crFlag]
      constructor
      · intro hflag
        by_cases hlong : i.isLong = true
        · rw [if_pos hlong] at hflag
          obtain ⟨before, between, heq, hall⟩ := ih.mp hflag
          refine ⟨before, between ++ [i], by simp [heq], fun j hj => ?_⟩
          rcases List.mem_append.mp hj with hold | hnew
          · exact hall j hold
          · rw [List.mem_singleton.mp hnew]
            exact hlong
        · rw [if_neg hlong] at hflag
          cases i with
          | char c =>
              simp only [Item.endsInCr, decide_eq_true_eq] at hflag
              exact ⟨items, [], by rw [hflag], by simp⟩
          | sequence k => exact absurd rfl hlong
      · rintro ⟨before, between, heq, hall⟩
        rcases List.eq_nil_or_concat' between with rfl | ⟨between, j, rfl⟩
        · obtain ⟨-, hi⟩ := List.append_inj' heq rfl
          rw [(List.cons.inj hi).1]
          rfl
        · obtain ⟨hitems, hi⟩ := List.append_inj'
            (heq.trans (List.append_assoc before (.char '\r' :: between) [j]).symm) rfl
          rw [(List.cons.inj hi).1, if_pos (hall j (by simp))]
          exact ih.mpr ⟨before, between, hitems, fun x hx =>
            hall x (List.mem_append_left _ hx)⟩

theorem foldl_endsInCr_iff (items : List Item) :
    items.foldl (fun _ i => i.endsInCr) false = true ↔
      ∃ before, items = before ++ [.char '\r'] := by
  induction items using List.reverseRecOn with
  | nil => simp
  | append_singleton items i ih =>
      rw [List.foldl_append, List.foldl_cons, List.foldl_nil]
      constructor
      · intro h
        cases i with
        | char c =>
            simp only [Item.endsInCr, decide_eq_true_eq] at h
            exact ⟨items, by rw [h]⟩
        | sequence k => cases h
      · rintro ⟨before, heq⟩
        rw [(List.cons.inj (List.append_inj' heq rfl).2).1]
        rfl

theorem typed_eq_expected_iff (items : List Item) :
    typedKeys false items = expectedKeys false items ↔ NoStaleCr items := by
  rw [typed_eq_expected_iff_flags items id]
  constructor
  · intro h before between after heq hlong
    have hflags := h (before ++ .char '\r' :: between) after (by simp [heq])
    have hset := (foldl_crFlag_iff (before ++ .char '\r' :: between)).mpr
      ⟨before, between, rfl, hlong⟩
    obtain ⟨front, hfront⟩ := (foldl_endsInCr_iff _).mp (hflags.symm.trans hset)
    rcases List.eq_nil_or_concat' between with hnil | ⟨between, j, rfl⟩
    · exact hnil
    · have hj := (List.append_inj'
        ((List.append_assoc before (.char '\r' :: between) [j]).trans hfront) rfl).2
      have hlast := hlong j (by simp)
      rw [(List.cons.inj hj).1] at hlast
      exact absurd hlast (by decide)
  · intro h before after heq
    refine Bool.eq_iff_iff.mpr ⟨fun hset => ?_, fun hset => ?_⟩
    · obtain ⟨front, between, rfl, hlong⟩ := (foldl_crFlag_iff before).mp hset
      have hnil := h front between after (by simp [heq]) hlong
      exact (foldl_endsInCr_iff _).mpr ⟨front, by rw [hnil]⟩
    · obtain ⟨front, rfl⟩ := (foldl_endsInCr_iff before).mp hset
      exact (foldl_crFlag_iff _).mpr ⟨front, [], rfl, by simp⟩

/-! ## The keys of well-formed input -/

/-- From an idle decoder, well-formed input gives the keys of its items exactly if no
line feed follows a carriage return with nothing but items of several bytes between. -/
theorem keys_of_items_iff {items : List Item} (hesc : d.esc = [])
    (hcr : d.lastWasCr = false) (hitems : ∀ i ∈ items, i.WellFormed) :
    (feedBytes d (items.flatMap Item.bytes)).2 = expectedKeys false items ↔ NoStaleCr items := by
  rw [(feedBytes_items hesc hitems).1, hcr, typed_eq_expected_iff]

/-- A word, a line end, an arrow key and another line end. -/
def sampleItems : List Item :=
  [.char 'h', .char 'é', .char '\r', .char '\n', .sequence (.letter [] (byteOf 'A')), .char '\n']

theorem keys_of_sampleItems :
    (∀ i ∈ sampleItems, i.WellFormed) ∧
      ((feedBytes newDecoder (sampleItems.flatMap Item.bytes)).2 = expectedKeys false sampleItems ↔
        NoStaleCr sampleItems) := by
  have hwf : ∀ i ∈ sampleItems, i.WellFormed := by
    have hchar : ∀ c : Char, c ≠ '\x1b' → (Item.char c).WellFormed := fun _ h => h
    simp only [sampleItems, List.forall_mem_cons]
    exact ⟨hchar _ (by decide), hchar _ (by decide), hchar _ (by decide), hchar _ (by decide),
      ⟨by decide, by decide, by simp⟩, hchar _ (by decide), by simp⟩
  exact ⟨hwf, keys_of_items_iff rfl rfl hwf⟩

/-- Behind a carriage return and an accented letter the line feed is lost. -/
theorem not_keys_of_items :
    ¬ ∀ (d : Decoder) (items : List Item), d.esc = [] → d.utf8Need = 0 → d.lastWasCr = false →
      (∀ i ∈ items, i.WellFormed) →
      (feedBytes d (items.flatMap Item.bytes)).2 = expectedKeys false items := by
  intro h
  have hwf : ∀ i ∈ [Item.char '\r', .char 'é', .char '\n'], i.WellFormed := by
    have hchar : ∀ c : Char, c ≠ '\x1b' → (Item.char c).WellFormed := fun _ h => h
    simp only [List.forall_mem_cons]
    exact ⟨hchar _ (by decide), hchar _ (by decide), hchar _ (by decide), by simp⟩
  exact absurd (h newDecoder _ rfl rfl rfl hwf) (by decide)

end EfiSshServer
