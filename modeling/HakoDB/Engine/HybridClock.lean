import HakoDB.Sync.Replicated

/-! The stamps of concurrent batches. A batch reads the shared watermark and writes its stamp back in two steps;
an accepted remote timestamp raises the watermark by compare-and-swap. -/
namespace HakoDB

/-- The stamp of a batch that finds this watermark. -/
def stampAbove (watermark nanos : Int64) : Int64 :=
  if nanos/1000 ≤ watermark then if watermark = Int64.maxValue then watermark else watermark+1 else nanos/1000

/-- A batch between its steps. `before` is what was stamped or observed when it started. -/
inductive BatchPhase
  | idle
  | started (nanos : Int64) (before : List Int64)
  | loaded (stamp : Int64) (before : List Int64)
  | stamped (stamp : Int64) (before : List Int64)

inductive ObserverPhase
  | idle
  | called (effective : Int64)
  | looping (effective cur : Int64)

structure SharedClock where
  watermark : Int64
  batches : ℕ → BatchPhase
  observers : ℕ → ObserverPhase
  /-- The stamps of the batches that have returned and the remote timestamps that have been observed. -/
  settled : List Int64

inductive ClockAct
  | start (b : ℕ) (nanos : Int64)
  | load (b : ℕ)
  | store (b : ℕ)
  | finish (b : ℕ)
  | observe (o : ℕ) (ts nowMicros : Int64)
  | look (o : ℕ)
  | swap (o : ℕ) (spurious : Bool)

namespace SharedClock

def setBatch (s : SharedClock) (b : ℕ) (phase : BatchPhase) : SharedClock :=
  {s with batches := fun i => if i = b then phase else s.batches i}

def setObserver (s : SharedClock) (o : ℕ) (phase : ObserverPhase) : SharedClock :=
  {s with observers := fun i => if i = o then phase else s.observers i}

/-- One step of the loop: the weak swap may fail without a reason. -/
def swapStep (s : SharedClock) (o : ℕ) (effective cur : Int64) (spurious : Bool) : SharedClock :=
  if cur < effective then
    if s.watermark = cur ∧ spurious = false then
      {s with watermark := effective, settled := effective::s.settled}.setObserver o .idle
    else s.setObserver o (.looping effective s.watermark)
  else {s with settled := effective::s.settled}.setObserver o .idle

/-- A step of one thread; nothing happens where the thread is not there yet. -/
def step (s : SharedClock) : ClockAct → SharedClock
  | .start b nanos =>
    match s.batches b with
    | .idle => s.setBatch b (.started nanos s.settled)
    | _ => s
  | .load b =>
    match s.batches b with
    | .started nanos before => s.setBatch b (.loaded (stampAbove s.watermark nanos) before)
    | _ => s
  | .store b =>
    match s.batches b with
    | .loaded stamp before => {s with watermark := stamp}.setBatch b (.stamped stamp before)
    | _ => s
  | .finish b =>
    match s.batches b with
    | .stamped stamp _ => {s with settled := stamp::s.settled}.setBatch b .idle
    | _ => s
  | .observe o ts nowMicros =>
    match s.observers o with
    | .idle => s.setObserver o (.called (min ts (nowMicros+Hako.skewCeilingMicros)))
    | _ => s
  | .look o =>
    match s.observers o with
    | .called effective => s.setObserver o (.looping effective s.watermark)
    | _ => s
  | .swap o spurious =>
    match s.observers o with
    | .looping effective cur => s.swapStep o effective cur spurious
    | _ => s

def run (s : SharedClock) (acts : List ClockAct) : SharedClock := acts.foldl step s

/-- Before any thread. -/
def fresh (watermark : Int64) : SharedClock := ⟨watermark,fun _ => .idle,fun _ => .idle,[]⟩

/-- Every stamp that a batch has given is above all that was settled when the batch started. -/
def StampsRise (s : SharedClock) : Prop := ∀ b stamp before,s.batches b = .stamped stamp before → ∀ x ∈ before,x < stamp

/-- No other thread has raised the watermark above the stamp since it was computed, and there is room for a
stamp above the watermark. -/
def Allows (s : SharedClock) : ClockAct → Prop
  | .load b =>
    match s.batches b with
    | .started _ _ => s.watermark ≠ Int64.maxValue
    | _ => True
  | .store b =>
    match s.batches b with
    | .loaded stamp _ => s.watermark ≤ stamp
    | _ => True
  | _ => True

def AllowsAll : SharedClock → List ClockAct → Prop
  | _,[] => True
  | s,a::as => s.Allows a ∧ (s.step a).AllowsAll as

/-- What is settled lies at or below the watermark, and below the stamps that are still to be stored. -/
structure Inv (s : SharedClock) : Prop where
  settled : ∀ x ∈ s.settled,x ≤ s.watermark
  started : ∀ b nanos before,s.batches b = .started nanos before → ∀ x ∈ before,x ≤ s.watermark
  loaded : ∀ b stamp before,s.batches b = .loaded stamp before → ∀ x ∈ before,x < stamp
  stamped : ∀ b stamp before,s.batches b = .stamped stamp before → stamp ≤ s.watermark ∧ ∀ x ∈ before,x < stamp
  looping : ∀ o effective cur,s.observers o = .looping effective cur → cur ≤ s.watermark

end SharedClock

theorem lt_stampAbove {watermark : Int64} (h : watermark ≠ Int64.maxValue) (nanos : Int64) :
    watermark < stampAbove watermark nanos := by
  unfold stampAbove
  split
  · rw [Int64.lt_iff_toInt_lt]
    have hmax : watermark.toInt ≠ 2^63-1 := fun heq => h (Int64.toInt_inj.1 heq)
    have hle : watermark.toInt ≤ 2^63-1 := watermark.toInt_le
    have hge : -2^63 ≤ watermark.toInt := watermark.le_toInt
    rw [Int64.toInt_add]
    simp only [Int64.toInt_one]
    rw [Int.bmod_eq_of_le] <;> omega
  · exact Int64.not_le.1 ‹_›

namespace SharedClock
variable {s : SharedClock}

theorem Inv.raise (h : s.Inv) {w : Int64} (hw : s.watermark ≤ w) : Inv {s with watermark := w} where
  settled x hx := Int64.le_trans (h.settled x hx) hw
  started b nanos before hb x hx := Int64.le_trans (h.started b nanos before hb x hx) hw
  loaded := h.loaded
  stamped b stamp before hb := ⟨Int64.le_trans (h.stamped b stamp before hb).1 hw,(h.stamped b stamp before hb).2⟩
  looping o effective cur ho := Int64.le_trans (h.looping o effective cur ho) hw

theorem Inv.settle (h : s.Inv) {x : Int64} (hx : x ≤ s.watermark) : Inv {s with settled := x::s.settled} where
  settled y hy := by
    rcases List.mem_cons.1 hy with rfl | hy
    · exact hx
    · exact h.settled y hy
  started := h.started
  loaded := h.loaded
  stamped := h.stamped
  looping := h.looping

/-- What a phase of a batch has to keep. -/
def BatchOk (watermark : Int64) : BatchPhase → Prop
  | .idle => True
  | .started _ before => ∀ x ∈ before,x ≤ watermark
  | .loaded stamp before => ∀ x ∈ before,x < stamp
  | .stamped stamp before => stamp ≤ watermark ∧ ∀ x ∈ before,x < stamp

theorem Inv.setBatch (h : s.Inv) (b : ℕ) {phase : BatchPhase} (hphase : BatchOk s.watermark phase) :
    (s.setBatch b phase).Inv := by
  refine ⟨h.settled,fun i nanos before hi => ?_,fun i stamp before hi => ?_,fun i stamp before hi => ?_,h.looping⟩
  all_goals
    dsimp only [SharedClock.setBatch] at hi ⊢
    split at hi
  · subst hi
    exact hphase
  · exact h.started i nanos before hi
  · subst hi
    exact hphase
  · exact h.loaded i stamp before hi
  · subst hi
    exact hphase
  · exact h.stamped i stamp before hi

theorem Inv.setObserver (h : s.Inv) (o : ℕ) {phase : ObserverPhase}
    (hphase : ∀ effective cur,phase = .looping effective cur → cur ≤ s.watermark) : (s.setObserver o phase).Inv := by
  refine ⟨h.settled,h.started,h.loaded,h.stamped,fun i effective cur hi => ?_⟩
  dsimp only [SharedClock.setObserver] at hi
  split at hi
  · exact hphase effective cur hi
  · exact h.looping i effective cur hi

theorem Inv.swapStep (h : s.Inv) {o : ℕ} {effective cur : Int64} (hcur : cur ≤ s.watermark) (spurious : Bool) :
    (s.swapStep o effective cur spurious).Inv ∧ s.watermark ≤ (s.swapStep o effective cur spurious).watermark := by
  unfold SharedClock.swapStep
  split
  · rename_i hlt
    split
    · rename_i hswap
      have hle : s.watermark ≤ effective := hswap.1 ▸ Int64.le_of_lt hlt
      refine ⟨Inv.setObserver (s := {s with watermark := effective, settled := effective::s.settled}) ?_ o ?_,hle⟩
      · exact (h.raise hle).settle (Int64.le_refl _)
      · intro e c hphase
        cases hphase
    · refine ⟨h.setObserver o fun e c hphase => ?_,Int64.le_refl _⟩
      cases hphase
      exact Int64.le_refl _
  · rename_i hge
    have hle : effective ≤ s.watermark := Int64.le_trans (Int64.not_lt.1 hge) hcur
    refine ⟨Inv.setObserver (s := {s with settled := effective::s.settled}) (h.settle hle) o fun e c hphase => ?_,
      Int64.le_refl _⟩
    cases hphase

/-- An allowed step keeps the order, and the watermark does not fall. -/
theorem Inv.step (h : s.Inv) {a : ClockAct} (ha : s.Allows a) : (s.step a).Inv ∧ s.watermark ≤ (s.step a).watermark := by
  cases a with
  | start b nanos =>
    rw [SharedClock.step]
    split
    · exact ⟨h.setBatch b h.settled,Int64.le_refl _⟩
    · exact ⟨h,Int64.le_refl _⟩
  | load b =>
    rw [SharedClock.step]
    rw [Allows] at ha
    split
    · rename_i nanos before hb
      simp only [hb] at ha
      refine ⟨h.setBatch b fun x hx => ?_,Int64.le_refl _⟩
      exact Int64.lt_of_le_of_lt (h.started b nanos before hb x hx) (lt_stampAbove ha nanos)
    · exact ⟨h,Int64.le_refl _⟩
  | store b =>
    rw [SharedClock.step]
    rw [Allows] at ha
    split
    · rename_i stamp before hb
      simp only [hb] at ha
      exact ⟨(h.raise ha).setBatch b ⟨Int64.le_refl _,h.loaded b stamp before hb⟩,ha⟩
    · exact ⟨h,Int64.le_refl _⟩
  | finish b =>
    rw [SharedClock.step]
    split
    · rename_i stamp before hb
      exact ⟨(h.settle (h.stamped b stamp before hb).1).setBatch b trivial,Int64.le_refl _⟩
    · exact ⟨h,Int64.le_refl _⟩
  | observe o ts nowMicros =>
    rw [SharedClock.step]
    split
    · refine ⟨h.setObserver o fun e c hphase => ?_,Int64.le_refl _⟩
      cases hphase
    · exact ⟨h,Int64.le_refl _⟩
  | look o =>
    rw [SharedClock.step]
    split
    · refine ⟨h.setObserver o fun e c hphase => ?_,Int64.le_refl _⟩
      cases hphase
      exact Int64.le_refl _
    · exact ⟨h,Int64.le_refl _⟩
  | swap o spurious =>
    rw [SharedClock.step]
    split
    · rename_i effective cur ho
      exact h.swapStep (h.looping o effective cur ho) spurious
    · exact ⟨h,Int64.le_refl _⟩

theorem Inv.run (h : s.Inv) {acts : List ClockAct} (hacts : s.AllowsAll acts) :
    (s.run acts).Inv ∧ s.watermark ≤ (s.run acts).watermark := by
  induction acts generalizing s with
  | nil => exact ⟨h,Int64.le_refl _⟩
  | cons a acts ih =>
    obtain ⟨hstep,hle⟩ := h.step hacts.1
    obtain ⟨hrun,hle'⟩ := ih hstep hacts.2
    exact ⟨hrun,Int64.le_trans hle hle'⟩

theorem inv_fresh (watermark : Int64) : (fresh watermark).Inv := by
  constructor <;> simp [fresh]

theorem allowsAll_append {first more : List ClockAct} (h : s.AllowsAll (first++more)) :
    s.AllowsAll first ∧ (s.run first).AllowsAll more := by
  induction first generalizing s with
  | nil => exact ⟨trivial,h⟩
  | cons a first ih =>
    obtain ⟨hfirst,hmore⟩ := ih h.2
    exact ⟨⟨h.1,hfirst⟩,hmore⟩

/-- In a run whose steps are all allowed every stamp is above what was settled when its batch started, and the
watermark never falls. -/
theorem run_stampsRise (watermark : Int64) {first more : List ClockAct}
    (hacts : (fresh watermark).AllowsAll (first++more)) :
    ((fresh watermark).run first).StampsRise ∧
    ((fresh watermark).run first).watermark ≤ ((fresh watermark).run (first++more)).watermark := by
  obtain ⟨hfirst,hmore⟩ := allowsAll_append hacts
  obtain ⟨hinv,-⟩ := (inv_fresh watermark).run hfirst
  have hle := (hinv.run hmore).2
  have hrun : (fresh watermark).run (first++more) = ((fresh watermark).run first).run more := List.foldl_append
  exact ⟨fun b stamp before hb => (hinv.stamped b stamp before hb).2,hrun ▸ hle⟩

/-- A batch that reads the clock behind the watermark, and a remote timestamp that is observed between its two steps. -/
def overtaken : List ClockAct :=
  [.start 0 5000,.load 0,.observe 0 100 5,.look 0,.swap 0 false,.store 0,.start 1 6000,.load 1,.store 1]

/-- The store takes the watermark back, and the next batch stamps below the timestamp that was observed. -/
theorem overtaken_stampsFall : ¬((fresh 10).run overtaken).StampsRise ∧
    ((fresh 10).run (overtaken.take 6)).watermark < ((fresh 10).run (overtaken.take 5)).watermark := by
  refine ⟨fun h => ?_,by decide⟩
  have hlt : (100 : Int64) < 12 := h 1 12 [100] rfl 100 (by decide)
  exact absurd hlt (by decide)

/-- Without the remote timestamp in between. -/
theorem run_stampsRise_inTurn :
    (fresh 10).AllowsAll ([.observe 0 100 5,.look 0,.swap 0 false,.start 0 5000,.load 0,.store 0]++[.finish 0]) ∧
    ((fresh 10).run [.observe 0 100 5,.look 0,.swap 0 false,.start 0 5000,.load 0,.store 0]).StampsRise := by
  have hacts : (fresh 10).AllowsAll ([.observe 0 100 5,.look 0,.swap 0 false,.start 0 5000,.load 0,.store 0]++[.finish 0]) := by
    have hload : (100 : Int64) ≠ Int64.maxValue := by decide
    have hstore : (100 : Int64) ≤ 101 := by decide
    exact ⟨trivial,trivial,trivial,trivial,hload,hstore,trivial,trivial⟩
  exact ⟨hacts,(run_stampsRise 10 hacts).1⟩

end SharedClock

namespace Hako
variable {Ledger : Type}

/-- A batch that nobody interrupts stamps as the write path does. -/
theorem stamp_eq_run (h : Hako Ledger) (nanos : Int64) :
    h.stamp nanos = ((SharedClock.fresh h.lastTsWatermark).run [.start 0 nanos,.load 0,.store 0]).watermark := rfl

end Hako

namespace SharedClock

theorem step_observe (s : SharedClock) {o : ℕ} (h : s.observers o = .idle) (ts nowMicros : Int64) :
    s.step (.observe o ts nowMicros) = s.setObserver o (.called (min ts (nowMicros+Hako.skewCeilingMicros))) := by
  rw [step,h]

/-- A compare-and-swap that nobody interrupts. -/
theorem called_run (s : SharedClock) (o : ℕ) (effective : Int64) :
    ((s.setObserver o (.called effective)).run [.look o,.swap o false]).watermark =
      if s.watermark < effective then effective else s.watermark := by
  have hlook : (s.setObserver o (.called effective)).step (.look o) =
      (s.setObserver o (.called effective)).setObserver o (.looping effective s.watermark) := by
    simp [step,SharedClock.setObserver]
  rw [run,List.foldl_cons,hlook,List.foldl_cons,List.foldl_nil]
  by_cases hlt : s.watermark < effective
  · simp [step,SharedClock.setObserver,swapStep,hlt]
  · simp [step,SharedClock.setObserver,swapStep,hlt]

end SharedClock

/-- So does a remote timestamp that nobody interrupts. -/
theorem Hako.observeRemoteTs_eq_run {Ledger : Type} (h : Hako Ledger) (nowMicros ts : Int64) :
    (h.observeRemoteTs nowMicros ts).lastTsWatermark =
      ((SharedClock.fresh h.lastTsWatermark).run [.observe 0 ts nowMicros,.look 0,.swap 0 false]).watermark := by
  have hrun := SharedClock.called_run (SharedClock.fresh h.lastTsWatermark) 0 (min ts (nowMicros+skewCeilingMicros))
  rw [SharedClock.run,List.foldl_cons,SharedClock.step_observe _ rfl]
  refine Eq.trans ?_ hrun.symm
  rw [observeRemoteTs,SharedClock.fresh]
  by_cases hlt : h.lastTsWatermark < min ts (nowMicros+skewCeilingMicros)
  · rw [if_pos hlt,if_pos hlt]
  · rw [if_neg hlt,if_neg hlt]

end HakoDB
