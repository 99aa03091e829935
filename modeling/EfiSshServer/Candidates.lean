import Mathlib.Data.List.Count
import EfiSshServer.Restoration

/-!
# One Shell for each session

`LaunchShell` tries one candidate after the other for as long as the status is
`EFI_NOT_FOUND`.  That is what `LoadImage` returns for a file that is not there, but also
what the Shell that was started may exit with: then the search goes on.
`launchShell_oneShell_iff` says when there is nonetheless no second Shell.

## Strategy

* A trial at one candidate (`Trial`) starts no image and exits from none, or it starts
  one behind all of its loads, and its status is that of the Shell.
* A search (`Searched`) is a sequence of trials.  Behind a Shell that exited with
  `EFI_NOT_FOUND` it can end well in one way only: it loads nothing any more because there
  is no memory for the device path of the next file.
* An image is loaded exactly where the firmware has granted what a load needs (`Loads`), so
  that the condition can be stated by the answers of the firmware (`NotMistaken`).
-/

namespace EfiSshServer

open StateProgram DeskM

variable {σ : Type} {P : Platform σ} {rounds : ℕ}

/-! ## The property -/

/-- `LoadImage`. -/
def MachineEvent.isLoad : MachineEvent → Bool
  | .asked (.loadFile _) => true
  | .asked (.loadVolume _) => true
  | _ => false

/-- Of what a call of `LaunchShell` that returned `st` has added to the log: it started
one image at most, loaded none after that, and found none only if it started none. -/
structure OneShell (news : List MachineEvent) (st : EfiStatus) : Prop where
  once : news.count .started ≤ 1
  noMore : news.Pairwise fun newer older => older = .started → newer.isLoad = false
  unstarted : st = efiNotFound → .started ∉ news

/-- The call ended because a device path could not be allocated. -/
def AllocFailed (P : Platform σ) (base news : List MachineEvent) : Prop :=
  ∃ pre, news = .asked .allocPath :: pre ∧ efiError (P.answer .allocPath (pre ++ base)) = true

/-- What is asked for directly before `LoadImage`. -/
def FirmwareCall.readies : FirmwareCall → Bool
  | .readShell _ | .allocPath => true
  | _ => false

/-- No Shell exited with `EFI_NOT_FOUND`, or the firmware then refused what it was asked for:
every Shell of another volume, and in the end the device path of the next file. -/
structure NotMistaken (P : Platform σ) (base news : List MachineEvent) : Prop where
  refused : ∀ later call older, news = later ++ .asked call :: older →
    .exited efiNotFound ∈ older → call.readies = true →
      efiError (P.answer call (older ++ base)) = true
  failed : .exited efiNotFound ∈ news → AllocFailed P base news

/-- The same by what was loaded. -/
structure Halted (P : Platform σ) (base news : List MachineEvent) : Prop where
  noMore : news.Pairwise fun newer older => older = .exited efiNotFound → newer.isLoad = false
  failed : .exited efiNotFound ∈ news → AllocFailed P base news

/-! ## Trials -/

/-- Not part of starting an image. -/
def MachineEvent.isQuiet : MachineEvent → Prop
  | .started => False
  | .exited _ => False
  | _ => True

/-- One candidate, and what its status means. -/
inductive Trial (P : Platform σ) (base : List MachineEvent) :
    List MachineEvent → EfiStatus → Prop
  | unstarted {news : List MachineEvent} {st : EfiStatus} (hquiet : ∀ e ∈ news, e.isQuiet)
      (hfailed : AllocFailed P base news → st ≠ efiNotFound)
      (hends : (∀ e ∈ news, e.isLoad = false) → st ≠ efiNotFound → AllocFailed P base news) :
      Trial P base news st
  | started {moves pre : List MachineEvent} {st : EfiStatus} (hmoves : ∀ e ∈ moves, e = .moved)
      (hquiet : ∀ e ∈ pre, e.isQuiet) (hload : ∃ e ∈ pre, e.isLoad = true) :
      Trial P base (.exited st :: (moves ++ .started :: pre)) st

section Lists

variable {base news news' pre moves : List MachineEvent} {st : EfiStatus}

theorem not_started_of_quiet (h : ∀ e ∈ news, e.isQuiet) : .started ∉ news :=
  fun hmem => h _ hmem

theorem not_exited_of_quiet (h : ∀ e ∈ news, e.isQuiet) : .exited st ∉ news :=
  fun hmem => h _ hmem

variable (news') in
/-- What came before is not what ended the call. -/
theorem allocFailed_append (hnot : ¬ AllocFailed P base news) :
    AllocFailed P base (news' ++ news) ↔ AllocFailed P (news ++ base) news' := by
  constructor
  · rintro ⟨pre, hpre, herror⟩
    rcases List.append_eq_cons_iff.mp hpre with ⟨rfl, hnews⟩ | ⟨rest, rfl, rfl⟩
    · exact absurd ⟨pre, hnews, herror⟩ hnot
    · exact ⟨rest, rfl, by rwa [List.append_assoc] at herror⟩
  · rintro ⟨pre, rfl, herror⟩
    exact ⟨pre ++ news, rfl, by rwa [List.append_assoc]⟩

/-- A trial behind other events. -/
theorem Trial.behind (hquiet : ∀ e ∈ pre, e.isQuiet) (hpath : ∀ e ∈ pre, e ≠ .asked .allocPath)
    (h : Trial P (pre ++ base) news st) : Trial P base (news ++ pre) st := by
  cases h with
  | unstarted hnews hfailed hends =>
    have happend : AllocFailed P base (news ++ pre) ↔ AllocFailed P (pre ++ base) news := by
      apply allocFailed_append news
      rintro ⟨rest, rfl, -⟩
      exact hpath _ List.mem_cons_self rfl
    apply Trial.unstarted
    · intro e he
      rcases List.mem_append.mp he with he | he
      · exact hnews e he
      · exact hquiet e he
    · exact fun h => hfailed (happend.mp h)
    · intro hload hst
      exact happend.mpr (hends (fun e he => hload e (List.mem_append_left _ he)) hst)
  | @started moves rest _ hmoves hrest hload =>
    rw [List.cons_append, List.append_assoc, List.cons_append]
    apply Trial.started hmoves
    · intro e he
      rcases List.mem_append.mp he with he | he
      · exact hrest e he
      · exact hquiet e he
    · obtain ⟨e, he, hisLoad⟩ := hload
      exact ⟨e, List.mem_append_left _ he, hisLoad⟩

/-! ## Searches -/

/-- A sequence of trials. -/
structure Searched (P : Platform σ) (base news : List MachineEvent) (st : EfiStatus) : Prop where
  verdict : OneShell news st ↔ Halted P base news
  quiet : (∀ e ∈ news, e.isLoad = false) → ∀ e ∈ news, e.isQuiet
  ends : (∀ e ∈ news, e.isLoad = false) → (st ≠ efiNotFound ↔ AllocFailed P base news)

theorem pairwise_of_not_mem {older : MachineEvent} (h : older ∉ news) :
    news.Pairwise fun newer e => e = older → newer.isLoad = false := by
  rw [List.pairwise_iff_forall_sublist]
  intro newer e hsub he
  exact absurd (hsub.subset (by simp [he])) h

theorem pairwise_append_of_not_mem {older : MachineEvent}
    (hload : ∀ e ∈ news', e.isLoad = false) (h : older ∉ news) :
    (news' ++ news).Pairwise fun newer e => e = older → newer.isLoad = false := by
  rw [List.pairwise_append]
  refine ⟨List.pairwise_of_forall_mem_list ?_, pairwise_of_not_mem h, ?_⟩
  · intro newer hnewer e _ _
    exact hload newer hnewer
  · intro newer hnewer e _ _
    exact hload newer hnewer

theorem oneShell_of_quiet (h : ∀ e ∈ news, e.isQuiet) : OneShell news st := by
  have hnot := not_started_of_quiet h
  refine ⟨?_, pairwise_of_not_mem hnot, fun _ => hnot⟩
  rw [List.count_eq_zero_of_not_mem hnot]
  exact Nat.zero_le 1

theorem halted_of_not_mem (h : .exited efiNotFound ∉ news) : Halted P base news :=
  ⟨pairwise_of_not_mem h, fun hmem => absurd hmem h⟩

/-- Behind a candidate that was not started. -/
theorem oneShell_append_quiet (h : ∀ e ∈ news, e.isQuiet) :
    OneShell (news' ++ news) st ↔ OneShell news' st := by
  have hnot := not_started_of_quiet h
  constructor
  · rintro ⟨honce, hnoMore, hunstarted⟩
    rw [List.count_append, List.count_eq_zero_of_not_mem hnot] at honce
    refine ⟨honce, (List.pairwise_append.mp hnoMore).1, fun hst hmem => ?_⟩
    exact hunstarted hst (List.mem_append_left _ hmem)
  · rintro ⟨honce, hnoMore, hunstarted⟩
    refine ⟨?_, ?_, fun hst hmem => ?_⟩
    · rw [List.count_append, List.count_eq_zero_of_not_mem hnot]
      exact honce
    · rw [List.pairwise_append]
      exact ⟨hnoMore, pairwise_of_not_mem hnot,
        fun newer _ e he hstarted => absurd (hstarted ▸ he) hnot⟩
    · rcases List.mem_append.mp hmem with hmem | hmem
      · exact hunstarted hst hmem
      · exact hnot hmem

theorem halted_append_quiet (h : ∀ e ∈ news, e.isQuiet) (hfailed : ¬ AllocFailed P base news) :
    Halted P base (news' ++ news) ↔ Halted P (news ++ base) news' := by
  have hnot : .exited efiNotFound ∉ news := not_exited_of_quiet h
  have happend := allocFailed_append news' hfailed
  constructor
  · rintro ⟨hnoMore, hlast⟩
    refine ⟨(List.pairwise_append.mp hnoMore).1, fun hmem => ?_⟩
    exact happend.mp (hlast (List.mem_append_left _ hmem))
  · rintro ⟨hnoMore, hlast⟩
    refine ⟨?_, fun hmem => happend.mpr (hlast ?_)⟩
    · rw [List.pairwise_append]
      exact ⟨hnoMore, pairwise_of_not_mem hnot,
        fun newer _ e he hexited => absurd (hexited ▸ he) hnot⟩
    · exact (List.mem_append.mp hmem).resolve_right hnot

section Started

variable (news') {exit : EfiStatus} (hmoves : ∀ e ∈ moves, e = .moved)
  (hquiet : ∀ e ∈ pre, e.isQuiet)

include hmoves hquiet

theorem not_exited_behind : .exited efiNotFound ∉ moves ++ .started :: pre := by
  intro hmem
  rcases List.mem_append.mp hmem with hmem | hmem
  · cases hmoves _ hmem
  · rcases List.mem_cons.mp hmem with hmem | hmem
    · cases hmem
    · exact hquiet _ hmem

/-- Behind a Shell, with whatever status it exited. -/
theorem oneShell_append_started :
    OneShell (news' ++ .exited exit :: (moves ++ .started :: pre)) st ↔
      .started ∉ news' ∧ (∀ e ∈ news', e.isLoad = false) ∧ st ≠ efiNotFound := by
  have hnot := not_started_of_quiet hquiet
  have hnotMoves : .started ∉ moves := fun hmem => by cases hmoves _ hmem
  have hmem : .started ∈ .exited exit :: (moves ++ .started :: pre) := by simp
  constructor
  · rintro ⟨honce, hnoMore, hunstarted⟩
    have hlast := (List.pairwise_append.mp hnoMore).2.2
    refine ⟨?_, fun e he => hlast e he _ hmem rfl, fun hst => ?_⟩
    · intro hmem'
      have hfirst := List.count_pos_iff.mpr hmem
      have hsecond := List.count_pos_iff.mpr hmem'
      rw [List.count_append] at honce
      omega
    · exact hunstarted hst (List.mem_append_right _ hmem)
  · rintro ⟨hnone, hload, hst⟩
    refine ⟨?_, ?_, fun hnf => absurd hnf hst⟩
    · simp [List.count_append, List.count_eq_zero_of_not_mem hnone,
        List.count_eq_zero_of_not_mem hnot, List.count_eq_zero_of_not_mem hnotMoves]
    · have hsplit : news' ++ .exited exit :: (moves ++ .started :: pre) =
          (news' ++ .exited exit :: (moves ++ [.started])) ++ pre := by simp
      rw [hsplit]
      apply pairwise_append_of_not_mem _ hnot
      intro e he
      simp only [List.mem_append, List.mem_cons, List.not_mem_nil, or_false] at he
      rcases he with he | rfl | he | rfl
      · exact hload e he
      · rfl
      · rw [hmoves e he]
        rfl
      · rfl

theorem halted_append_started :
    Halted P base (news' ++ .exited efiNotFound :: (moves ++ .started :: pre)) ↔
      (∀ e ∈ news', e.isLoad = false) ∧
        AllocFailed P (.exited efiNotFound :: (moves ++ .started :: pre) ++ base) news' := by
  have hnot := not_exited_behind hmoves hquiet
  have hfailed : ¬ AllocFailed P base (.exited efiNotFound :: (moves ++ .started :: pre)) := by
    rintro ⟨_, hcons, -⟩
    cases hcons
  have happend := allocFailed_append news' hfailed
  have hmem : .exited efiNotFound ∈ .exited efiNotFound :: (moves ++ .started :: pre) :=
    List.mem_cons_self
  constructor
  · rintro ⟨hnoMore, hlast⟩
    have hload := (List.pairwise_append.mp hnoMore).2.2
    exact ⟨fun e he => hload e he _ hmem rfl, happend.mp (hlast (List.mem_append_right _ hmem))⟩
  · rintro ⟨hload, hlast⟩
    refine ⟨?_, fun _ => happend.mpr hlast⟩
    have hsplit : news' ++ .exited efiNotFound :: (moves ++ .started :: pre) =
        (news' ++ [.exited efiNotFound]) ++ (moves ++ .started :: pre) := by simp
    rw [hsplit]
    apply pairwise_append_of_not_mem _ hnot
    intro e he
    rcases List.mem_append.mp he with he | he
    · exact hload e he
    · rw [List.mem_singleton.mp he]
      rfl

end Started

theorem Trial.searched (h : Trial P base news st) : Searched P base news st := by
  cases h with
  | unstarted hquiet hfailed hends =>
    have hright : Halted P base news := halted_of_not_mem (not_exited_of_quiet hquiet)
    exact ⟨iff_of_true (oneShell_of_quiet hquiet) hright, fun _ => hquiet,
      fun hload => ⟨hends hload, hfailed⟩⟩
  | @started moves pre _ hmoves hquiet hload =>
    obtain ⟨e, he, hisLoad⟩ := hload
    have hmem : e ∈ .exited st :: (moves ++ .started :: pre) :=
      List.mem_cons_of_mem _ (List.mem_append_right _ (List.mem_cons_of_mem _ he))
    have hnone : ∀ {p : Prop}, (∀ e ∈ .exited st :: (moves ++ .started :: pre),
        e.isLoad = false) → p := fun hall => absurd (hall e hmem) (by simp [hisLoad])
    refine ⟨?_, hnone, hnone⟩
    have hone : OneShell (.exited st :: (moves ++ .started :: pre)) st ↔ _ :=
      oneShell_append_started [] hmoves hquiet
    by_cases hst : st = efiNotFound
    · subst hst
      have hright : Halted P base (.exited efiNotFound :: (moves ++ .started :: pre)) ↔ _ :=
        halted_append_started [] hmoves hquiet
      rw [hone, hright]
      simp [AllocFailed]
    · have hnot : .exited efiNotFound ∉ .exited st :: (moves ++ .started :: pre) := by
        intro hexited
        rcases List.mem_cons.mp hexited with heq | hexited
        · exact hst (MachineEvent.exited.inj heq).symm
        · exact not_exited_behind hmoves hquiet hexited
      exact iff_of_true (hone.mpr ⟨by simp, by simp, hst⟩) (halted_of_not_mem hnot)

/-- The search goes on behind a candidate with `EFI_NOT_FOUND`. -/
theorem Searched.behind (hfirst : Trial P base news efiNotFound)
    (h : Searched P (news ++ base) news' st) : Searched P base (news' ++ news) st := by
  obtain ⟨hverdict, hquiet', hends⟩ := h
  cases hfirst with
  | unstarted hquiet hfailed _ =>
    have hnot : ¬ AllocFailed P base news := fun h => hfailed h rfl
    refine ⟨?_, fun hload e he => ?_, fun hload => ?_⟩
    · rw [oneShell_append_quiet hquiet, halted_append_quiet hquiet hnot, hverdict]
    · rcases List.mem_append.mp he with he | he
      · exact hquiet' (fun e he => hload e (List.mem_append_left _ he)) e he
      · exact hquiet e he
    · rw [allocFailed_append news' hnot]
      exact hends fun e he => hload e (List.mem_append_left _ he)
  | @started moves pre _ hmoves hquiet hload =>
    obtain ⟨e, he, hisLoad⟩ := hload
    have hmem : e ∈ news' ++ .exited efiNotFound :: (moves ++ .started :: pre) := by simp [he]
    have hnone : ∀ {p : Prop}, (∀ e ∈ news' ++ .exited efiNotFound :: (moves ++ .started :: pre),
        e.isLoad = false) → p := fun hall => absurd (hall e hmem) (by simp [hisLoad])
    refine ⟨?_, hnone, hnone⟩
    rw [oneShell_append_started news' hmoves hquiet, halted_append_started news' hmoves hquiet]
    constructor
    · rintro ⟨-, hload, hst⟩
      exact ⟨hload, (hends hload).mp hst⟩
    · rintro ⟨hload, hlast⟩
      exact ⟨not_started_of_quiet (hquiet' hload), hload, (hends hload).mpr hlast⟩

end Lists

/-! ## Loads and answers -/

/-- `LoadImage` comes directly behind a request that was granted, and behind nothing else. -/
inductive Loads (P : Platform σ) (base : List MachineEvent) : List MachineEvent → Prop
  | none : Loads P base []
  | other {e : MachineEvent} {news : List MachineEvent} (h : Loads P base news)
      (hload : e.isLoad = false) (hrefused : ∀ call, e = .asked call → call.readies = true →
        efiError (P.answer call (news ++ base)) = true) : Loads P base (e :: news)
  | load {e : MachineEvent} {call : FirmwareCall} {news : List MachineEvent}
      (h : Loads P base news) (hload : e.isLoad = true) (hready : call.readies = true)
      (hgranted : efiError (P.answer call (news ++ base)) = false) :
      Loads P base (e :: .asked call :: news)

section Answers

variable {base news news' : List MachineEvent}

theorem Loads.of_not_asked (h : ∀ e ∈ news, ∀ call, e ≠ .asked call) : Loads P base news := by
  induction news with
  | nil => exact .none
  | cons e news ih =>
      refine Loads.other (ih fun e he => h e (List.mem_cons_of_mem _ he)) ?_ fun call he => ?_
      · cases e
        case asked call => exact absurd rfl (h _ List.mem_cons_self call)
        all_goals rfl
      · exact absurd he (h e List.mem_cons_self call)

theorem Loads.append (h' : Loads P (news ++ base) news') (h : Loads P base news) :
    Loads P base (news' ++ news) := by
  induction h' with
  | none => exact h
  | other _ hload hrefused ih =>
      refine ih.other hload fun call he hready => ?_
      rw [List.append_assoc]
      exact hrefused call he hready
  | load _ hload hready hgranted ih =>
      refine ih.load hload hready ?_
      rw [List.append_assoc]
      exact hgranted

/-- Statements about the questions of a log, from the newest event on. -/
theorem forall_asked_cons {R : FirmwareCall → List MachineEvent → Prop} {e : MachineEvent} :
    (∀ later call older, e :: news = later ++ .asked call :: older → R call older) ↔
      (∀ call, e = .asked call → R call news) ∧
        ∀ later call older, news = later ++ .asked call :: older → R call older := by
  constructor
  · intro h
    refine ⟨fun call he => h [] call news (by rw [he]; rfl), fun later call older heq => ?_⟩
    exact h (e :: later) call older (by rw [heq]; rfl)
  · rintro ⟨hfirst, hrest⟩ later call older heq
    cases later with
    | nil =>
        obtain ⟨he, rfl⟩ := List.cons.inj heq
        exact hfirst call he
    | cons x later =>
        obtain ⟨-, heq⟩ := List.cons.inj heq
        exact hrest later call older heq

/-- Nothing is loaded behind a Shell that exited with `EFI_NOT_FOUND` if and only if the
firmware grants no request there. -/
theorem Loads.noMore_iff (h : Loads P base news) :
    (news.Pairwise fun newer older => older = .exited efiNotFound → newer.isLoad = false) ↔
      ∀ later call older, news = later ++ .asked call :: older → .exited efiNotFound ∈ older →
        call.readies = true → efiError (P.answer call (older ++ base)) = true := by
  induction h with
  | none => simp
  | @other e news _ hload hrefused ih =>
      rw [List.pairwise_cons, ih, forall_asked_cons]
      refine and_congr_left fun _ => ⟨fun _ call he _ hready => hrefused call he hready, ?_⟩
      exact fun _ older _ _ => hload
  | @load e call news _ hload hready hgranted ih =>
      have hasked : (MachineEvent.asked call).isLoad = false := by
        cases call <;> first | rfl | cases hready
      have hnotLoad : ¬ e.isLoad = false := by
        rw [hload]
        decide
      constructor
      · intro hpairs
        obtain ⟨hnewest, hpairs⟩ := List.pairwise_cons.mp hpairs
        have hnot : .exited efiNotFound ∉ .asked call :: news := fun hmem =>
          hnotLoad (hnewest _ hmem rfl)
        refine forall_asked_cons.mpr ⟨fun _ _ hmem => absurd hmem hnot, ?_⟩
        refine forall_asked_cons.mpr ⟨fun _ _ hmem => ?_, ih.mp (List.pairwise_cons.mp hpairs).2⟩
        exact absurd (List.mem_cons_of_mem _ hmem) hnot
      · intro hall
        obtain ⟨hfirst, hrest⟩ := forall_asked_cons.mp (forall_asked_cons.mp hall).2
        have hnot : .exited efiNotFound ∉ .asked call :: news := by
          intro hmem
          rcases List.mem_cons.mp hmem with hmem | hmem
          · cases hmem
          · exact absurd ((hfirst call rfl hmem hready).symm.trans hgranted) (by decide)
        refine List.pairwise_cons.mpr ⟨fun older holder heq => absurd (heq ▸ holder) hnot, ?_⟩
        exact List.pairwise_cons.mpr ⟨fun _ _ _ => hasked, ih.mpr hrest⟩

theorem halted_iff_notMistaken (h : Loads P base news) :
    Halted P base news ↔ NotMistaken P base news :=
  ⟨fun hhalted => ⟨h.noMore_iff.mp hhalted.noMore, hhalted.failed⟩,
    fun hnot => ⟨h.noMore_iff.mpr hnot.refused, hnot.failed⟩⟩

end Answers

/-! ## The programs -/

section Programs

variable {d : Desk σ} {path : List UInt16}

theorem wp_ask {post : EfiStatus → Desk σ → Prop} {fault : Stop → Prop} (call : FirmwareCall) :
    wp (ask P call) post fault =
      fun d => post (P.answer call d.log) { d with log := .asked call :: d.log } :=
  rfl

/-- A program that tries one candidate. -/
def Tries (P : Platform σ) (m : DeskM σ EfiStatus) : Prop :=
  ∀ d, wp m (fun st d' => ∃ news, d'.log = news ++ d.log ∧ Trial P d.log news st) anyStop d

/-- A program that tries some. -/
def Searches (P : Platform σ) (m : DeskM σ EfiStatus) : Prop :=
  ∀ d, wp m (fun st d' => ∃ news, d'.log = news ++ d.log ∧ Searched P d.log news st) anyStop d

theorem Tries.searches {m : DeskM σ EfiStatus} (h : Tries P m) : Searches P m := by
  intro d
  refine wp.imp (h d) fun st d' htrial => ?_
  obtain ⟨news, hlog, htrial⟩ := htrial
  exact ⟨news, hlog, htrial.searched⟩

theorem Tries.notFound : Tries P (pure efiNotFound) := by
  intro d
  refine ⟨[], rfl, .unstarted (by simp) ?_ fun _ hst => absurd rfl hst⟩
  rintro ⟨pre, hnil, -⟩
  cases hnil

/-- A question in front of a trial. -/
theorem Tries.ask {k : EfiStatus → DeskM σ EfiStatus} {call : FirmwareCall}
    (hcall : call ≠ .allocPath) (hk : ∀ st, Tries P (k st)) : Tries P (ask P call >>= k) := by
  intro d
  rw [wp_bind, wp_ask]
  refine wp.imp (hk _ _) fun st d' htrial => ?_
  obtain ⟨news, hlog, htrial⟩ := htrial
  refine ⟨news ++ [.asked call], by simpa using hlog, ?_⟩
  apply Trial.behind _ _ htrial
  · intro e he
    rw [List.mem_singleton.mp he]
    trivial
  · intro e he
    rw [List.mem_singleton.mp he]
    exact fun heq => hcall (MachineEvent.asked.inj heq)

theorem Tries.ite {c : Prop} [Decidable c] {m n : DeskM σ EfiStatus} (hm : Tries P m)
    (hn : Tries P n) : Tries P (if c then m else n) := by
  split
  · exact hm
  · exact hn

theorem runShell_exits (rounds : ℕ) (d : Desk σ) :
    wp (runShell P rounds) (fun st d' => ∃ moves, d'.log = .exited st :: (moves ++ d.log) ∧
      ∀ e ∈ moves, e = .moved) anyStop d := by
  induction rounds generalizing d with
  | zero => trivial
  | succ rounds ih =>
    have hmore : ∀ con gST, wp (runShell P rounds) (fun st d' => ∃ moves,
        d'.log = .exited st :: (moves ++ d.log) ∧ ∀ e ∈ moves, e = .moved) anyStop
        { d with gST := gST, log := .moved :: d.log, console := con } := by
      intro con gST
      refine wp.imp (ih _) fun st d' hexits => ?_
      obtain ⟨moves, hlog, hmoves⟩ := hexits
      refine ⟨moves ++ [.moved], by simpa using hlog, fun e he => ?_⟩
      rcases List.mem_append.mp he with he | he
      · exact hmoves e he
      · exact List.mem_singleton.mp he
    simp only [runShell, wp_bind, wp_get, wp_log]
    split
    · exact ⟨[.moved], rfl, fun e he => List.mem_singleton.mp he⟩
    · simp only [wp_bind, wp_modify]
      exact hmore _ _
    · rw [wp_bind]
      exact wp_onConsole_of_forall fun _ con _ => hmore con _

/-- An image that was loaded is started. -/
theorem startImage_trial {base : List MachineEvent} (pre : List MachineEvent)
    (hlog : d.log = pre ++ base)
    (hquiet : ∀ e ∈ pre, e.isQuiet) (hload : ∃ e ∈ pre, e.isLoad = true) :
    wp (startImageWithOpts P rounds) (fun st d' => ∃ news, d'.log = news ++ base ∧
      Trial P base news st) anyStop d := by
  simp only [startImageWithOpts, wp_bind, wp_log]
  refine wp.imp (runShell_exits rounds _) fun st d' hexits => ?_
  obtain ⟨moves, hlog', hmoves⟩ := hexits
  rw [hlog] at hlog'
  exact ⟨_, by simpa using hlog', .started hmoves hquiet hload⟩

theorem tryVolumes_tries (count i : ℕ) : Tries P (tryVolumes P rounds count i) := by
  induction count generalizing i with
  | zero => exact .notFound
  | succ count ih =>
    apply Tries.ask (by simp)
    intro st
    apply Tries.ite (ih _)
    apply Tries.ask (by simp)
    intro st
    apply Tries.ite (ih _)
    intro d
    rw [wp_bind, wp_ask]
    refine wp.ite (fun _ => ?_) fun _ => ?_
    · refine wp.imp (ih _ _) fun st d' htrial => ?_
      obtain ⟨news, hlog, htrial⟩ := htrial
      refine ⟨news ++ [.asked (.loadVolume i)], by simpa using hlog, ?_⟩
      apply Trial.behind (by simp [MachineEvent.isQuiet]) (by simp) htrial
    · apply startImage_trial [.asked (.loadVolume i)] rfl
      · simp [MachineEvent.isQuiet]
      · simp [MachineEvent.isLoad]

theorem tryFv_tries : Tries P (tryFv P rounds) := by
  apply Tries.ask (by simp)
  intro st
  apply Tries.ite .notFound
  intro d
  exact tryVolumes_tries _ _ d

theorem tryFile_tries (path : List UInt16) : Tries P (tryFile P rounds path) := by
  apply Tries.ite .notFound
  apply Tries.ask (by simp)
  intro st
  apply Tries.ite .notFound
  intro d
  rw [wp_bind, wp_ask]
  refine wp.ite (fun herror => ?_) fun _ => ?_
  · refine ⟨[.asked .allocPath], rfl, .unstarted (by simp [MachineEvent.isQuiet]) ?_ ?_⟩
    · intro _
      decide
    · intro _ _
      exact ⟨[], rfl, herror⟩
  rw [wp_bind, wp_ask]
  refine wp.ite (fun herror => ?_) fun _ => ?_
  · refine ⟨[.asked (.loadFile path), .asked .allocPath], rfl,
      .unstarted (by simp [MachineEvent.isQuiet]) ?_ ?_⟩
    · rintro ⟨pre, hpre, -⟩
      cases hpre
    · intro hload
      simp [MachineEvent.isLoad] at hload
  · apply startImage_trial [.asked (.loadFile path), .asked .allocPath] rfl
    · simp [MachineEvent.isQuiet]
    · simp [MachineEvent.isLoad]

/-- One more candidate, and the others when its status is `EFI_NOT_FOUND`. -/
theorem Searches.orElse {m k : DeskM σ EfiStatus} (hm : Tries P m) (hk : Searches P k) :
    Searches P (m >>= fun st => if st ≠ efiNotFound then pure st else k) := by
  intro d
  rw [wp_bind]
  refine wp.imp (hm d) fun st d' htrial => ?_
  obtain ⟨news, hlog, htrial⟩ := htrial
  refine wp.ite (fun _ => ⟨news, hlog, htrial.searched⟩) fun hst => ?_
  rw [not_not] at hst
  subst hst
  refine wp.imp (hk d') fun st d'' hsearched => ?_
  obtain ⟨news', hlog', hsearched⟩ := hsearched
  rw [hlog] at hsearched hlog'
  exact ⟨news' ++ news, by rw [hlog', List.append_assoc], .behind htrial hsearched⟩

theorem tryCandidates_searches (dir : List UInt16) (candidates : List (List UInt16)) :
    Searches P (tryCandidates P rounds dir candidates) := by
  induction candidates with
  | nil => exact Tries.notFound.searches
  | cons candidate rest ih =>
    intro d
    apply wp.ite
    · intro _
      exact ih d
    · intro _
      exact Searches.orElse (tryFile_tries _) ih d

theorem launchDefault_searches : Searches P (launchDefault P rounds) :=
  .orElse tryFv_tries (tryCandidates_searches _ _)

theorem launchShell_searches : Searches P (launchShell P rounds) := by
  intro d
  have hasked : Trial P d.log [.asked .loadedImage] efiNotFound := by
    apply Trial.unstarted (by simp [MachineEvent.isQuiet])
    · rintro ⟨pre, hpre, -⟩
      cases hpre
    · exact fun _ hst => absurd rfl hst
  rw [launchShell, wp_bind, wp_ask]
  refine wp.ite (fun _ => ⟨[.asked .loadedImage], rfl, hasked.searched⟩) fun _ => ?_
  have hrest : Searches P (do
      if P.shellPath ≠ [] then
        let st ← tryFile P rounds P.shellPath
        if st ≠ efiNotFound then return st
      launchDefault P rounds) := by
    intro d
    apply wp.ite
    · intro _
      exact Searches.orElse (tryFile_tries _) launchDefault_searches d
    · intro _
      exact launchDefault_searches d
  refine wp.imp (hrest _) fun st d' hsearched => ?_
  obtain ⟨news, hlog, hsearched⟩ := hsearched
  have hsearched : Searched P ([.asked .loadedImage] ++ d.log) news st := hsearched
  exact ⟨news ++ [.asked .loadedImage], by simpa using hlog, .behind hasked hsearched⟩

/-- A program that loads what the firmware grants. -/
def Loading (P : Platform σ) (m : DeskM σ EfiStatus) : Prop :=
  ∀ d, wp m (fun _ d' => ∃ news, d'.log = news ++ d.log ∧ Loads P d.log news) anyStop d

theorem Loading.pure (st : EfiStatus) : Loading P (Pure.pure st) := fun _ => ⟨[], rfl, .none⟩

theorem Loading.bind {m : DeskM σ EfiStatus} {k : EfiStatus → DeskM σ EfiStatus}
    (hm : Loading P m) (hk : ∀ st, Loading P (k st)) : Loading P (m >>= k) := by
  intro d
  rw [wp_bind]
  refine wp.imp (hm d) fun st d' h => ?_
  obtain ⟨news, hlog, hloads⟩ := h
  refine wp.imp (hk st d') fun st' d'' h' => ?_
  obtain ⟨news', hlog', hloads'⟩ := h'
  rw [hlog] at hlog' hloads'
  exact ⟨news' ++ news, by rw [hlog', List.append_assoc], hloads'.append hloads⟩

theorem Loading.ite {c : Prop} [Decidable c] {m n : DeskM σ EfiStatus} (hm : Loading P m)
    (hn : Loading P n) : Loading P (if c then m else n) := by
  split
  · exact hm
  · exact hn

/-- A question that neither loads nor readies a load. -/
theorem Loading.ask {k : EfiStatus → DeskM σ EfiStatus} {call : FirmwareCall}
    (hload : (MachineEvent.asked call).isLoad = false) (hready : call.readies = false)
    (hk : ∀ st, Loading P (k st)) : Loading P (ask P call >>= k) := by
  refine .bind (fun d => ⟨[.asked call], rfl, ?_⟩) hk
  refine Loads.none.other hload fun call' heq hready' => ?_
  obtain rfl := MachineEvent.asked.inj heq
  exact absurd (hready.symm.trans hready') (by decide)

/-- A request, and the load behind it if it is granted. -/
theorem Loading.ready {m : DeskM σ EfiStatus} {k : EfiStatus → DeskM σ EfiStatus}
    {call load : FirmwareCall} (hcall : (MachineEvent.asked call).isLoad = false)
    (hready : call.readies = true) (hload : (MachineEvent.asked load).isLoad = true)
    (hm : Loading P m) (hk : ∀ st, Loading P (k st)) :
    Loading P (EfiSshServer.ask P call >>= fun st =>
      if efiError st = true then m else EfiSshServer.ask P load >>= k) := by
  intro d
  rw [wp_bind, wp_ask]
  refine wp.ite (fun hrefused => ?_) fun hgranted => ?_
  · refine wp.imp (hm _) fun st d' h => ?_
    obtain ⟨news, hlog, hloads⟩ := h
    refine ⟨news ++ [.asked call], by simpa using hlog, hloads.append ?_⟩
    refine Loads.none.other hcall fun call' heq _ => ?_
    obtain rfl := MachineEvent.asked.inj heq
    exact hrefused
  · rw [wp_bind, wp_ask]
    refine wp.imp (hk _ _) fun st d' h => ?_
    obtain ⟨news, hlog, hloads⟩ := h
    refine ⟨news ++ [.asked load, .asked call], by simpa using hlog, hloads.append ?_⟩
    exact Loads.none.load hload hready (Bool.not_eq_true _ ▸ hgranted)

theorem startImage_loading : Loading P (startImageWithOpts P rounds) := by
  intro d
  simp only [startImageWithOpts, wp_bind, wp_log]
  refine wp.imp (runShell_exits rounds _) fun st d' hexits => ?_
  obtain ⟨moves, hlog, hmoves⟩ := hexits
  refine ⟨.exited st :: (moves ++ [.started]), by simpa using hlog, .of_not_asked ?_⟩
  intro e he call heq
  rw [heq] at he
  rcases List.mem_cons.mp he with he | he
  · cases he
  · rcases List.mem_append.mp he with he | he
    · cases hmoves _ he
    · cases List.mem_singleton.mp he

theorem tryVolumes_loading (count i : ℕ) : Loading P (tryVolumes P rounds count i) := by
  induction count generalizing i with
  | zero => exact .pure _
  | succ count ih =>
      refine Loading.ask rfl rfl fun st => .ite (ih _) ?_
      refine Loading.ready ?_ ?_ ?_ (ih _) fun st => .ite (ih _) startImage_loading <;> rfl

theorem tryFile_loading (path : List UInt16) : Loading P (tryFile P rounds path) := by
  refine Loading.ite (.pure _) (Loading.ask rfl rfl fun st => .ite (.pure _) ?_)
  refine Loading.ready ?_ ?_ ?_ (.pure _) fun st => .ite (.pure _) startImage_loading <;> rfl

theorem tryCandidates_loading (dir : List UInt16) (candidates : List (List UInt16)) :
    Loading P (tryCandidates P rounds dir candidates) := by
  induction candidates with
  | nil => exact .pure _
  | cons candidate rest ih =>
      exact .ite ih (.bind (tryFile_loading _) fun st => .ite (.pure _) ih)

theorem launchShell_loading : Loading P (launchShell P rounds) := by
  have hvolumes : Loading P (tryFv P rounds) :=
    .ask rfl rfl fun st => .ite (.pure _) fun d => tryVolumes_loading _ _ d
  have hdefault : Loading P (launchDefault P rounds) :=
    .bind hvolumes fun st => .ite (.pure _) (tryCandidates_loading _ _)
  refine Loading.ask rfl rfl fun st => .ite (.pure _) (.ite ?_ hdefault)
  exact .bind (tryFile_loading _) fun st => .ite (.pure _) hdefault

/-- Unless a Shell exits with `EFI_NOT_FOUND`, a call of `LaunchShell` starts one at most,
and says so. -/
theorem launchShell_oneShell_iff (P : Platform σ) (rounds : ℕ) (d d' : Desk σ) (st : EfiStatus)
    (hrun : launchShell P rounds d = .ok (st, d')) :
    ∃ news, d'.log = news ++ d.log ∧ (OneShell news st ↔ NotMistaken P d.log news) := by
  obtain ⟨news, hlog, hsearched⟩ := (launchShell_searches d).ok hrun
  obtain ⟨news', hlog', hloads⟩ := (launchShell_loading d).ok hrun
  obtain rfl : news' = news := List.append_cancel_right (hlog'.symm.trans hlog)
  exact ⟨news', hlog, hsearched.verdict.trans (halted_iff_notMistaken hloads)⟩

/-- No Shell at the `-s` path, and the one in the firmware volume exits with a failure. -/
def volumePlatform : Platform Server :=
  { samplePlatform with
    shellPath := wide "\\Shell.efi"
    answer := fun call _ => match call with
      | .loadFile _ => efiNotFound
      | _ => efiSuccess
    shell := fun _ => .exit efiAborted }

theorem launchShell_oneShell_volume : ∃ d d' : Desk Server, ∃ news,
    launchShell volumePlatform 1 d = .ok (efiAborted, d') ∧ d'.log = news ++ d.log ∧
      .started ∈ news ∧ OneShell news efiAborted := by
  obtain ⟨host, -⟩ := plainEnv_new (fun _ _ => true) 0 [] [] []
  have hstatus : efiNotFound ≠ efiAborted := by decide
  obtain ⟨d, d', hd, hrun, hstarted, hexited⟩ : ∃ d d' : Desk Server, d.log = [] ∧
      launchShell volumePlatform 1 d = .ok (efiAborted, d') ∧
      .started ∈ d'.log ∧ .exited efiNotFound ∉ d'.log :=
    ⟨⟨atStart ⟨1, 2, 3, 4, 5, 6⟩, zeroConsole host⟩, _, rfl, rfl, by simp,
      by simp [hstatus, atStart]⟩
  obtain ⟨news, hlog, hiff⟩ := launchShell_oneShell_iff volumePlatform 1 d d' efiAborted hrun
  have hnews : d'.log = news := by rw [hlog, hd, List.append_nil]
  rw [hnews] at hstarted hexited
  refine ⟨d, d', news, hrun, hlog, hstarted, hiff.mpr ⟨?_, fun hmem => absurd hmem hexited⟩⟩
  rintro later call older rfl hmem
  exact absurd (List.mem_append_right _ (List.mem_cons_of_mem _ hmem)) hexited

/-- The Shell in the firmware volume exits with `EFI_NOT_FOUND`, and so do the next ones. -/
theorem launchShell_again : ∃ d d' : Desk Server, ∃ news,
    launchShell { samplePlatform with shell := fun _ => .exit efiNotFound } 1 d =
      .ok (efiNotFound, d') ∧
    d'.log = news ++ d.log ∧ ¬ OneShell news efiNotFound := by
  obtain ⟨host, -⟩ := plainEnv_new (fun _ _ => true) 0 [] [] []
  refine ⟨⟨atStart ⟨1, 2, 3, 4, 5, 6⟩, zeroConsole host⟩, _, _, rfl, (List.append_nil _).symm, ?_⟩
  intro hone
  exact hone.unstarted rfl (by simp)

end Programs

end EfiSshServer
