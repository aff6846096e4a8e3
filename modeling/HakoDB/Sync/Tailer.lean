import HakoDB.Storage.Crc32
import HakoDB.Storage.WalTail

/-! A reader that follows a log by its offset, while the log is appended to, flushed and reset. It takes over the
returned offset only together with records. -/
namespace HakoDB
open ByteCodec FramedLog LogHistory

inductive TailAct
  | write (a : LogAct)
  | reset
  | poll
  deriving DecidableEq

/-- A log and its reader. Beside the offset stand the records returned since the last reset, and whether the
offset is from that time. -/
structure Tailer where
  log : LogHistory
  offset : ℕ
  returned : List WalOp
  current : Bool

namespace Tailer
variable (crc : Bytes → UInt32)

/-- The reader of a log that holds some records begins at its start. -/
def start (w : Wal) (ops : List WalOp) : Tailer := ⟨⟨w,ops,ops⟩,0,[],true⟩

def took (t : Tailer) (found : List WalOp × ℕ) : Tailer :=
  if found.1.isEmpty then t else {t with offset := found.2, returned := t.returned++found.1, current := true}

def step (t : Tailer) : TailAct → Tailer
  | .write a => {t with log := t.log.write crc a}
  | .reset => {t with log := t.log.reset, returned := [], current := false}
  | .poll =>
    match t.log.wal.tail crc t.offset with
    | .ok found => t.took found
    | .error _ => t

def run (t : Tailer) (acts : List TailAct) : Tailer := acts.foldl (step crc) t

variable (cipher : Option Cipher)

/-- The lengths of the records fit their fields, and no poll meets a log that was reset since the reader got its
offset and is as long as that offset again. -/
def Allows (t : Tailer) : TailAct → Prop
  | .write a => ∀ op ∈ a.records,RecordFits cipher op
  | .reset => True
  | .poll => t.current = true ∨ t.offset = 0 ∨ t.log.wal.dataLen < t.offset

def AllowsAll : Tailer → List TailAct → Prop
  | _,[] => True
  | t,a::acts => t.Allows cipher a ∧ AllowsAll (t.step crc a) acts

/-- The log has been opened and holds the records in its file. -/
def Opened (w : Wal) (ops : List WalOp) : Prop := ∃ disk : List (LogEntry cipher),LogHistory.Holds crc ⟨w,ops,ops⟩ disk []

/-- The reading begins where a record ends, or with the first one. -/
def StartsAtRecord (t : Tailer) : Prop := ∃ front back : List (LogEntry cipher),
  t.log.wal.file.take t.log.wal.cursor = image crc (front++back) ∧ t.log.wal.tailStart t.offset = (image crc front).length

/-- An offset of the log's own time stands behind the records that were returned. -/
def Inv (t : Tailer) : Prop := ∃ disk buffered : List (LogEntry cipher),t.log.Holds crc disk buffered ∧
  if t.current then ∃ front back,disk = front++back ∧ t.offset = (image crc front).length ∧ t.returned = front.map Entry.value
  else t.returned = []

variable {crc cipher} {t : Tailer}

theorem inv_start {w : Wal} {ops : List WalOp} (h : Opened crc cipher w ops) : (start w ops).Inv crc cipher := by
  obtain ⟨disk,hholds⟩ := h
  exact ⟨disk,[],hholds,[],disk,rfl,rfl,rfl⟩

theorem Inv.write (h : t.Inv crc cipher) {a : LogAct} (hfits : ∀ op ∈ a.records,RecordFits cipher op) :
    (t.step crc (.write a)).Inv crc cipher := by
  obtain ⟨disk,buffered,hholds,hread⟩ := h
  obtain ⟨more,rest,hnew⟩ := hholds.write hfits
  refine ⟨disk++more,rest,hnew,?_⟩
  change if t.current then _ else _
  split at hread
  · rename_i hcurrent
    obtain ⟨front,back,rfl,hoffset,hreturned⟩ := hread
    rw [if_pos hcurrent]
    exact ⟨front,back++more,List.append_assoc front back more,hoffset,hreturned⟩
  · rename_i hcurrent
    rw [if_neg hcurrent]
    exact hread

/-- Where a poll is allowed, it starts at a record and returns all records that are written. -/
theorem Inv.poll (h : t.Inv crc cipher) (hallows : t.Allows cipher .poll) :
    t.StartsAtRecord crc cipher ∧ (t.step crc .poll).returned = t.log.flushed ∧ (t.step crc .poll).Inv crc cipher := by
  obtain ⟨disk,buffered,hholds,hread⟩ := h
  have hstores := hholds.stores
  -- in every allowed case the reading starts at the end of a front part whose records were returned before
  obtain ⟨front,back,hdisk,hstart,htail,hreturned⟩ : ∃ front back,disk = front++back ∧
      t.log.wal.tailStart t.offset = (image crc front).length ∧
      t.log.wal.tail crc t.offset = .ok (back.map Entry.value,(image crc disk).length) ∧ t.returned = front.map Entry.value := by
    split at hread
    · obtain ⟨front,back,hdisk,hoffset,hreturned⟩ := hread
      refine ⟨front,back,hdisk,?_,hoffset ▸ hstores.tail_boundary hholds.measured hdisk,hreturned⟩
      have hlen : t.log.wal.dataLen = (image crc disk).length := Eq.trans hholds.measured hstores.cursor_eq
      rw [hdisk,image_append,List.length_append] at hlen
      rw [Wal.tailStart,if_neg (by omega),hoffset]
    · rename_i hcurrent
      refine ⟨[],disk,rfl,?_,?_,hread⟩
      all_goals rcases hallows.resolve_left hcurrent with hzero | hbeyond
      · simp [Wal.tailStart,hzero]
      · exact if_pos hbeyond
      · exact hzero ▸ hstores.tail_boundary hholds.measured (List.nil_append disk).symm
      · exact hstores.tail_beyond hbeyond
  refine ⟨⟨front,back,hdisk ▸ hstores.file,hstart⟩,?_⟩
  rw [step,htail]
  dsimp only [took]
  split
  · rename_i hempty
    obtain rfl : back = [] := by simpa using hempty
    exact ⟨by rw [hreturned,hholds.flushed_eq,hdisk,List.append_nil],disk,buffered,hholds,hread⟩
  · have hall : t.returned++back.map Entry.value = disk.map Entry.value := by rw [hreturned,hdisk,List.map_append]
    exact ⟨hall.trans hholds.flushed_eq.symm,disk,buffered,hholds,disk,[],(List.append_nil disk).symm,rfl,hall⟩

theorem Inv.step (h : t.Inv crc cipher) {a : TailAct} (hallows : t.Allows cipher a) : (t.step crc a).Inv crc cipher := by
  cases a with
  | write a => exact h.write hallows
  | reset =>
    obtain ⟨disk,buffered,hholds,-⟩ := h
    exact ⟨[],[],hholds.reset,rfl⟩
  | poll => exact (h.poll hallows).2.2

theorem Inv.run (h : t.Inv crc cipher) {acts : List TailAct} (hallows : t.AllowsAll crc cipher acts) :
    (t.run crc acts).Inv crc cipher := by
  induction acts generalizing t with
  | nil => exact h
  | cons a acts ih => exact ih (h.step hallows.1) hallows.2

theorem allowsAll_append {first rest : List TailAct} (h : t.AllowsAll crc cipher (first++rest)) :
    t.AllowsAll crc cipher first ∧ (t.run crc first).AllowsAll crc cipher rest := by
  induction first generalizing t with
  | nil => exact ⟨trivial,h⟩
  | cons a first ih =>
    obtain ⟨hfirst,hrest⟩ := ih h.2
    exact ⟨⟨h.1,hfirst⟩,hrest⟩

/-- In a run whose steps are allowed, every poll starts at a record, and after it the reader has got exactly the
records that were written since the last reset. -/
theorem run_polls {w : Wal} {ops : List WalOp} (hopened : Opened crc cipher w ops) {first rest : List TailAct}
    (hallows : (start w ops).AllowsAll crc cipher (first++.poll::rest)) :
    ((start w ops).run crc first).StartsAtRecord crc cipher ∧
      ((start w ops).run crc (first++[.poll])).returned = ((start w ops).run crc first).log.flushed := by
  obtain ⟨hfirst,hrest⟩ := allowsAll_append hallows
  have hpoll := ((inv_start hopened).run hfirst).poll hrest.1
  refine ⟨hpoll.1,?_⟩
  rw [Tailer.run,List.foldl_append]
  exact hpoll.2.1

/-- One record, read; then a reset and another record. -/
def rewriteActs (op op' : WalOp) : List TailAct :=
  [.write (.append 0 [op] false),.poll,.reset,.write (.append 0 [op'] false)]

theorem run_rewriteActs (crc : Bytes → UInt32) {op op' : WalOp} (hfits : RecordFits none op) :
    (start newLog []).run crc (rewriteActs op op') =
      ⟨⟨newLog.appendBatch crc 0 [op'] false,[op'],[op']⟩,8+op.encodeInto.length,[],false⟩ := by
  simp [Tailer.run,rewriteActs,step,start,took,write_newLog,LogHistory.reset,tail_newLog crc hfits,reset_newLog]

/-- The reader gets nothing of the rewritten log, and further polls change nothing. -/
theorem polls_miss_rewrite :
    ((start newLog []).run crc32 (rewriteActs (.delete "a" 1) (.delete "b" 2))).log.flushed = [.delete "b" 2] ∧
    ((start newLog []).run crc32 (rewriteActs (.delete "a" 1) (.delete "b" 2))).returned = [] ∧
    (start newLog []).run crc32 (rewriteActs (.delete "a" 1) (.delete "b" 2)++[.poll]) =
      (start newLog []).run crc32 (rewriteActs (.delete "a" 1) (.delete "b" 2)) := by
  have hfits : RecordFits none (.delete "a" 1) := recordFits_of_key (by decide) (by simp)
  have hlength : (WalOp.delete "a" 1).encodeInto.length = (WalOp.delete "b" 2).encodeInto.length := by decide
  -- the offset is the new length of the log, so it does not count as one from before the reset
  have htail := tail_newLog_end crc32 (.delete "b" 2)
  rw [← hlength] at htail
  have hpoll : ∀ acts,(start newLog []).run crc32 (acts++[.poll]) = ((start newLog []).run crc32 acts).step crc32 .poll :=
    fun acts => List.foldl_append
  rw [hpoll,run_rewriteActs crc32 hfits]
  simp [step,htail,took]

/-- Rewritten with a shorter record, the log is read from its start. -/
theorem run_polls_shorter :
    ((start newLog []).run crc32 (rewriteActs (.putInlined "a" (List.replicate 16 0)) (.delete "b" 2)++[.poll])).returned =
      ((start newLog []).run crc32 (rewriteActs (.putInlined "a" (List.replicate 16 0)) (.delete "b" 2))).log.flushed := by
  have hput : RecordFits none (.putInlined "a" (List.replicate 16 0)) := recordFits_of_key (by decide) (by simp)
  have hdelete : RecordFits none (.delete "b" 2) := recordFits_of_key (by decide) (by simp)
  refine (@run_polls crc32 none newLog [] ⟨[],holds_newLog crc32⟩ _ [] ?_).2
  refine ⟨by simpa [Allows,LogAct.records] using hput,.inl rfl,trivial,by simpa [Allows,LogAct.records] using hdelete,.inr (.inr ?_),trivial⟩
  change ((start newLog []).run crc32 (rewriteActs (.putInlined "a" (List.replicate 16 0)) (.delete "b" 2))).log.wal.dataLen <
    ((start newLog []).run crc32 (rewriteActs (.putInlined "a" (List.replicate 16 0)) (.delete "b" 2))).offset
  rw [run_rewriteActs crc32 hput,append_newLog]
  decide

end Tailer

end HakoDB
