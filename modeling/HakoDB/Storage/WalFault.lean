import HakoDB.Storage.WalLog

/-! Appends whose write or sync can fail. The buffer is cleared after a sync only, so that the records of a
failed append stay in it, and a part of them may stand in the file. -/
namespace HakoDB
open ByteCodec FramedLog

/-- What the file system makes of a flush. -/
inductive IoOutcome
  | done
  | writeFails (written : ℕ)
  | syncFails
  | positionFails
  deriving DecidableEq, Repr

namespace Wal
variable (crc : Bytes → UInt32)

/-- The first bytes of the buffer have reached the file; the buffer is as before. -/
def writePart (n : ℕ) (w : Wal) : Wal :=
  {w with
    file := writeAt w.cursor (w.writeBuffer.take n) w.file
    cursor := w.cursor+(w.writeBuffer.take n).length}

/-- The log after a flush, and the error that the flush ends with. -/
def flushWithFaults (io : IoOutcome) (now : ℕ) (w : Wal) : Wal × Option Fault :=
  if w.writeBuffer = [] then (w,none)
  else match io with
    | .done => (w.flush now,none)
    | .writeFails n => (w.writePart n,some (.error (.io "write_all")))
    | .syncFails => (w.writePart w.writeBuffer.length,some (.error (.io "sync_data")))
    | .positionFails => ({w.flush now with dataLen := w.dataLen},some (.error (.io "stream_position")))

def appendBatchFastWithFaults (io : IoOutcome) (now : ℕ) (txId : UInt64) (ops : List WalOp) (w : Wal) : Wal × Option Fault :=
  let w := (txRecords txId ops).foldl (appendToBuffer crc) w
  if w.shouldFlush now true then w.flushWithFaults io now else (w,none)

variable {io : IoOutcome} {now : ℕ} {txId : UInt64} {ops : List WalOp}

theorem flushWithFaults_none {w : Wal} (h : (w.flushWithFaults io now).2 = none) :
    (w.flushWithFaults io now).1 = w.flush now := by
  unfold flushWithFaults at h ⊢
  split at h
  · rename_i hempty
    simp [flush,hempty]
  · rename_i hfull
    cases io <;> simp_all

/-- An append that does not fail is the one without failures. -/
theorem appendBatchFastWithFaults_none {w : Wal} (h : (w.appendBatchFastWithFaults crc io now txId ops).2 = none) :
    (w.appendBatchFastWithFaults crc io now txId ops).1 = w.appendBatchFast crc now txId ops false := by
  unfold appendBatchFastWithFaults at h ⊢
  unfold appendBatchFast maybeSync
  dsimp only at h ⊢
  simp only [Bool.false_and,Bool.false_eq_true,if_false]
  split at h
  · rename_i hflush
    rw [if_pos hflush,if_pos hflush]
    exact flushWithFaults_none h
  · rename_i hflush
    rw [if_neg hflush,if_neg hflush]

theorem appendBatchFastWithFaults_done {w : Wal} :
    (w.appendBatchFastWithFaults crc .done now txId ops).2 = none := by
  unfold appendBatchFastWithFaults flushWithFaults
  dsimp only
  split
  · split <;> rfl
  · rfl

variable {cipher : Option Cipher}

/-- The records in the file and those in the buffer; only zeros stand behind the former. -/
structure Stores (w : Wal) (disk buffered : List (LogEntry cipher)) : Prop where
  cipher_eq : w.encryption.map EncryptionContext.cipher = cipher
  file : w.file.take w.cursor = image crc disk
  buffer : w.writeBuffer = image crc buffered
  cursor_le : w.cursor ≤ w.file.length
  padding : ∀ b ∈ w.file.drop w.cursor,b = 0

variable {crc} {w : Wal} {disk buffered : List (LogEntry cipher)}

theorem Stores.holds (h : w.Stores crc disk buffered) : w.Holds crc (disk++buffered) := by
  refine ⟨h.cipher_eq,?_,h.cursor_le,h.padding⟩
  rw [image_append,h.file,h.buffer]

theorem Stores.file_eq (h : w.Stores crc disk buffered) :
    w.file = image crc disk++List.replicate (w.file.length-w.cursor) 0 := by
  have hzeros : w.file.drop w.cursor = List.replicate (w.file.length-w.cursor) 0 :=
    List.eq_replicate_iff.mpr ⟨by simp,h.padding⟩
  rw [← hzeros,← h.file,List.take_append_drop]

theorem Holds.stores {log : List (LogEntry cipher)} (h : w.Holds crc log) (hb : w.writeBuffer = []) :
    w.Stores crc log [] := by
  have hbytes := h.bytes
  rw [hb,List.append_nil] at hbytes
  exact ⟨h.cipher_eq,hbytes,hb,h.cursor_le,h.padding⟩

theorem Stores.appendAll (h : w.Stores crc disk buffered) (hops : ∀ op ∈ ops,RecordFits cipher op) :
    ∃ es : List (LogEntry cipher),es.map Entry.value = ops ∧
      (ops.foldl (Wal.appendToBuffer crc) w).Stores crc disk (buffered++es) := by
  induction ops generalizing w buffered with
  | nil => exact ⟨[],rfl,by simpa using h⟩
  | cons op ops ih =>
    obtain rfl := h.cipher_eq
    have hop := hops op List.mem_cons_self
    have h1 : (w.appendToBuffer crc op).Stores crc disk (buffered++[logEntry w.encryption op hop]) := by
      refine ⟨?_,h.file,?_,h.cursor_le,h.padding⟩
      · simp only [Wal.appendToBuffer,Option.map_map]
        rfl
      · rw [image_append,← h.buffer]
        simp [Wal.appendToBuffer,Entry.bytes,logEntry]
    obtain ⟨es,hes,h2⟩ := ih h1 fun o ho => hops o (List.mem_cons_of_mem _ ho)
    exact ⟨logEntry w.encryption op hop::es,by simp [hes,logEntry],by simpa using h2⟩

theorem Stores.flush (h : w.Stores crc disk buffered) (now : ℕ) : (w.flush now).Stores crc (disk++buffered) [] :=
  (h.holds.flush now).stores (flush_writeBuffer w now)

theorem setLen_eq_take {n : ℕ} {file : Bytes} (h : n ≤ file.length) : setLen n file = file.take n := by
  simp [setLen,Nat.sub_eq_zero_of_le h]

/-- A batch adds its records to the buffer, or everything goes to the file. -/
theorem Stores.appendBatchFast_cases (h : w.Stores crc disk buffered) (now : ℕ) (txId : UInt64)
    (hops : ∀ op ∈ ops,RecordFits cipher op) : ∃ es : List (LogEntry cipher),es.map Entry.value = txRecords txId ops ∧
      ((w.appendBatchFast crc now txId ops false).Stores crc disk (buffered++es) ∨
        (w.appendBatchFast crc now txId ops false).Stores crc (disk++(buffered++es)) []) := by
  obtain ⟨es,hes,h1⟩ := h.appendAll (recordFits_txRecords hops)
  refine ⟨es,hes,?_⟩
  unfold Wal.appendBatchFast Wal.maybeSync
  simp only [Bool.false_and,Bool.false_eq_true,if_false]
  split
  · exact .inr (h1.flush now)
  · exact .inl h1

/-- A batch adds its records; some front part of all of them is in the file. -/
theorem Stores.appendBatchFast (h : w.Stores crc disk buffered) (now : ℕ) (txId : UInt64)
    (hops : ∀ op ∈ ops,RecordFits cipher op) : ∃ disk' buffered' : List (LogEntry cipher),
      (disk'++buffered').map Entry.value = (disk++buffered).map Entry.value++txRecords txId ops ∧
      (w.appendBatchFast crc now txId ops false).Stores crc disk' buffered' := by
  obtain ⟨es,hes,h1 | h1⟩ := h.appendBatchFast_cases now txId hops
  · exact ⟨disk,buffered++es,by simp [hes],h1⟩
  · exact ⟨disk++(buffered++es),[],by simp [hes],h1⟩

theorem mode_appendAll (ops : List WalOp) (w : Wal) : (ops.foldl (Wal.appendToBuffer crc) w).mode = w.mode := by
  induction ops generalizing w with
  | nil => rfl
  | cons op ops ih => exact ih (w.appendToBuffer crc op)

/-- A batch whose end flushes has all its records in the file. -/
theorem Stores.appendBatchFast_flushed (h : w.Stores crc disk buffered) (now : ℕ) (txId : UInt64)
    (hops : ∀ op ∈ ops,RecordFits cipher op)
    (hflush : ((txRecords txId ops).foldl (Wal.appendToBuffer crc) w).shouldFlush now true = true) :
    ∃ es : List (LogEntry cipher),es.map Entry.value = txRecords txId ops ∧
      (w.appendBatchFast crc now txId ops false).Stores crc (disk++(buffered++es)) [] := by
  obtain ⟨es,hes,h1⟩ := h.appendAll (recordFits_txRecords hops)
  refine ⟨es,hes,?_⟩
  unfold Wal.appendBatchFast Wal.maybeSync
  simp only [Bool.false_and,Bool.false_eq_true,if_false,hflush,if_true]
  exact h1.flush now

/-- The log syncs every transaction that ends. -/
def SyncsCommits (w : Wal) : Prop := w.mode = .always ∨ w.mode = .onCommit

theorem Stores.appendBatchFast_synced (h : w.Stores crc disk buffered) (hmode : w.SyncsCommits) (now : ℕ)
    (txId : UInt64) (hops : ∀ op ∈ ops,RecordFits cipher op) : ∃ es : List (LogEntry cipher),
      es.map Entry.value = txRecords txId ops ∧
      (w.appendBatchFast crc now txId ops false).Stores crc (disk++(buffered++es)) [] := by
  refine h.appendBatchFast_flushed now txId hops ?_
  unfold shouldFlush
  rw [mode_appendAll]
  rcases hmode with hmode | hmode <;> rw [hmode]

/-- An append that could write nothing leaves its records in the buffer. -/
theorem Stores.appendFails (h : w.Stores crc disk buffered) (now : ℕ) (txId : UInt64)
    (hops : ∀ op ∈ ops,RecordFits cipher op) : ∃ es : List (LogEntry cipher),es.map Entry.value = txRecords txId ops ∧
      (w.appendBatchFastWithFaults crc (.writeFails 0) now txId ops).1.Stores crc disk (buffered++es) := by
  obtain ⟨es,hes,h1⟩ := h.appendAll (recordFits_txRecords hops)
  refine ⟨es,hes,?_⟩
  unfold appendBatchFastWithFaults flushWithFaults
  dsimp only
  split
  · split
    · exact h1
    · have hset := setLen_eq_take h1.cursor_le
      refine ⟨h1.cipher_eq,?_,h1.buffer,?_,?_⟩
      all_goals
        simp only [writePart,writeAt,List.take_zero,List.append_nil,List.length_nil,Nat.add_zero,hset,List.take_append_drop]
      · exact h1.file
      · exact h1.cursor_le
      · exact h1.padding
  · exact h1

/-- A restart finds what is in the file. -/
theorem Stores.replay (h : w.Stores crc disk buffered) :
    ∃ w',w.replay crc = .ok (filterCommittedOps (disk.map Entry.value),w') := by
  have hholds : ({w with writeBuffer := []} : Wal).Holds crc disk := by
    refine ⟨h.cipher_eq,?_,h.cursor_le,h.padding⟩
    rw [List.append_nil]
    exact h.file
  obtain ⟨w1,hw1,-,-⟩ := hholds.replay rfl
  unfold Wal.replay at hw1 ⊢
  obtain ⟨s,hs,hrest⟩ := bind_eq_ok.1 hw1
  simp only at hs
  rw [hs]
  exact ⟨_,congrArg Except.ok (Prod.ext (Prod.mk.inj (Except.ok.inj hrest)).1 rfl)⟩

end Wal

end HakoDB
