import HakoDB.Storage.WalFault

/-! Reading the log from an offset. An offset behind the records counts as one from before a reset, and the
log is read from its start. -/
namespace HakoDB
open ByteCodec FramedLog

/-- As in a replay, but a record that cannot be decoded always ends the call. -/
def tailPayload (cipher : Option Cipher) (payload : Bytes) : Decoded WalOp Fault :=
  let opened := match cipher with
    | some cipher => cipher.open' payload
    | none => .ok payload
  match opened.bind WalOp.decode with
  | .ok op => .record op
  | .error e => .fail e

theorem tailPayload_of_record {cipher : Option Cipher} {payload : Bytes} {op : WalOp}
    (h : decodePayload cipher payload = .record op) : tailPayload cipher payload = .record op := by
  unfold decodePayload at h
  unfold tailPayload
  cases cipher with
  | some cipher =>
    dsimp only at h ⊢
    cases hopen : cipher.open' payload with
    | error e => rw [hopen] at h; cases h
    | ok p =>
      rw [hopen] at h
      dsimp only at h
      split at h
      · rename_i hdecode
        rw [Except.bind,hdecode,← Decoded.record.inj h]
      · cases h
      · cases h
  | none =>
    dsimp only at h ⊢
    split at h
    · rename_i hdecode
      rw [Except.bind,hdecode,← Decoded.record.inj h]
    · cases h
    · cases h

namespace Wal
variable (crc : Bytes → UInt32)

/-- The length of the records is known: the log has been replayed, reset or written to. -/
def Measured (w : Wal) : Prop := w.dataLen = w.cursor

/-- Where the reading starts. -/
def tailStart (w : Wal) (startOffset : ℕ) : ℕ := if w.dataLen < startOffset then 0 else startOffset

def tail (w : Wal) (startOffset : ℕ) : Res (List WalOp × ℕ) :=
  let start := w.tailStart startOffset
  if w.file.length ≤ start then .ok ([],w.file.length)
  else do
    let s ← scan crc (tailPayload (w.encryption.map EncryptionContext.cipher)) (w.file.drop start)
    return (s.records,start+s.consumed)

variable {crc} {cipher : Option Cipher}

/-- A record of the log as the tailing reader meets it. -/
def tailEntry (e : LogEntry cipher) : Entry (tailPayload cipher) :=
  ⟨e.payload,e.value,tailPayload_of_record e.decodes,e.nonempty,e.small⟩

theorem image_tailEntry (log : List (LogEntry cipher)) : image crc (log.map tailEntry) = image crc log := by
  rw [image,List.flatMap_map]
  rfl

theorem image_eq_nil {log : List (LogEntry cipher)} : image crc log = [] ↔ log = [] := by
  refine ⟨fun h => ?_,fun h => by rw [h]; rfl⟩
  cases log with
  | nil => rfl
  | cons e log =>
    have hlength := congrArg List.length h
    simp at hlength

variable {w : Wal} {disk buffered : List (LogEntry cipher)}

theorem Stores.cursor_eq (h : w.Stores crc disk buffered) : w.cursor = (image crc disk).length := by
  rw [← h.file,List.length_take,Nat.min_eq_left h.cursor_le]

variable {front back : List (LogEntry cipher)} {offset : ℕ}

/-- From the end of a record on, the records behind it are read. -/
theorem Stores.scan_back (h : w.Stores crc disk buffered) (hdisk : disk = front++back) :
    ∃ stop,scan crc (tailPayload (w.encryption.map EncryptionContext.cipher)) (w.file.drop (image crc front).length) =
      .ok ⟨back.map Entry.value,(image crc back).length,stop⟩ := by
  obtain ⟨stop,hscan,-⟩ := scan_padded crc (back.map tailEntry) (w.file.length-w.cursor)
  refine ⟨stop,?_⟩
  have hdrop : w.file.drop (image crc front).length = image crc back++List.replicate (w.file.length-w.cursor) 0 := by
    conv_lhs => rw [h.file_eq,hdisk,image_append,List.append_assoc,List.drop_left]
  rw [hdrop,h.cipher_eq]
  rw [image_tailEntry,List.map_map] at hscan
  exact hscan

theorem Stores.read_back (h : w.Stores crc disk buffered) (hdisk : disk = front++back)
    (hstart : w.tailStart offset = (image crc front).length) :
    w.tail crc offset = .ok (back.map Entry.value,(image crc disk).length) := by
  obtain ⟨stop,hscan⟩ := h.scan_back hdisk
  have hlength : (image crc disk).length = (image crc front).length+(image crc back).length := by
    rw [hdisk,image_append,List.length_append]
  have hfile : (image crc disk).length ≤ w.file.length := h.cursor_eq ▸ h.cursor_le
  unfold tail
  simp only [hstart,hscan]
  split
  · have hback : image crc back = [] := List.length_eq_zero_iff.1 (by omega)
    obtain rfl := image_eq_nil.1 hback
    have heq : w.file.length = (image crc disk).length := by
      rw [image_nil,List.length_nil] at hlength
      omega
    rw [heq]
    rfl
  · rw [hlength]
    rfl

/-- Read from the end of one of its records, a log gives the records behind it. -/
theorem Stores.tail_boundary (h : w.Stores crc disk buffered) (hlen : w.Measured) (hdisk : disk = front++back) :
    w.tail crc (image crc front).length = .ok (back.map Entry.value,(image crc disk).length) := by
  refine h.read_back hdisk (if_neg ?_)
  rw [show w.dataLen = w.cursor from hlen,h.cursor_eq,hdisk,image_append,List.length_append]
  omega

/-- Read from behind its records, it gives them all. -/
theorem Stores.tail_beyond (h : w.Stores crc disk buffered) (hoffset : w.dataLen < offset) :
    w.tail crc offset = .ok (disk.map Entry.value,(image crc disk).length) :=
  h.read_back (List.nil_append disk).symm (if_pos hoffset)

theorem Measured.appendAll (h : w.Measured) (ops : List WalOp) : (ops.foldl (appendToBuffer crc) w).Measured := by
  induction ops generalizing w with
  | nil => exact h
  | cons op ops ih => exact ih (w := w.appendToBuffer crc op) h

theorem Measured.flush (h : w.Measured) (now : ℕ) : (w.flush now).Measured := by
  unfold Wal.flush
  split
  · exact h
  · rfl

theorem Measured.maybeSync (h : w.Measured) (now : ℕ) (isCommit isRemote : Bool) : (w.maybeSync now isCommit isRemote).Measured := by
  unfold Wal.maybeSync
  split
  · rfl
  · split
    · exact h.flush now
    · exact h

/-- A sync leaves the records where they are, or moves all of them to the file. -/
theorem Stores.maybeSync (h : w.Stores crc disk buffered) (now : ℕ) (isCommit isRemote : Bool) :
    (w.maybeSync now isCommit isRemote).Stores crc disk buffered ∨
      (w.maybeSync now isCommit isRemote).Stores crc (disk++buffered) [] := by
  unfold Wal.maybeSync
  split
  · exact .inr (h.holds.writeAll.stores rfl)
  · split
    · exact .inr (h.flush now)
    · exact .inl h

end Wal

/-- What is written to a log between two resets. -/
inductive LogAct
  | append (now : ℕ) (ops : List WalOp) (isRemote : Bool)
  | commit (now : ℕ) (txId : UInt64) (ops : List WalOp) (isRemote : Bool)
  | flush (now : ℕ)
  deriving DecidableEq

def LogAct.records : LogAct → List WalOp
  | append _ ops _ => ops
  | commit _ txId ops _ => txRecords txId ops
  | flush _ => []

def Wal.write (crc : Bytes → UInt32) (w : Wal) : LogAct → Wal
  | .append now ops isRemote => w.appendBatch crc now ops isRemote
  | .commit now txId ops isRemote => w.appendBatchFast crc now txId ops isRemote
  | .flush now => w.flush now

/-- A log with the records that were appended to it and those that were written to its file since the last reset. -/
structure LogHistory where
  wal : Wal
  appended : List WalOp
  flushed : List WalOp

namespace LogHistory
variable (crc : Bytes → UInt32)

def write (l : LogHistory) (a : LogAct) : LogHistory :=
  let w := l.wal.write crc a
  ⟨w,l.appended++a.records,if w.writeBuffer = [] then l.appended++a.records else l.flushed⟩

def reset (l : LogHistory) : LogHistory := ⟨l.wal.reset,[],[]⟩

variable {cipher : Option Cipher}

/-- The log is the records that were appended, and its file those that were written. -/
structure Holds (l : LogHistory) (disk buffered : List (LogEntry cipher)) : Prop where
  stores : l.wal.Stores crc disk buffered
  measured : l.wal.Measured
  appended_eq : l.appended = (disk++buffered).map Entry.value
  flushed_eq : l.flushed = disk.map Entry.value

variable {crc} {l : LogHistory} {disk buffered : List (LogEntry cipher)}

theorem Holds.reset (h : l.Holds crc disk buffered) : l.reset.Holds crc ([] : List (LogEntry cipher)) [] :=
  ⟨(Wal.reset_holds h.stores.cipher_eq).stores rfl,rfl,rfl,rfl⟩

/-- New records stand in the buffer, or they and all before them in the file. -/
theorem Holds.wrote (h : l.Holds crc disk buffered) {w : Wal} (hmeasured : w.Measured) {es : List (LogEntry cipher)}
    (hstores : w.Stores crc disk (buffered++es) ∨ w.Stores crc (disk++(buffered++es)) []) :
    ∃ more rest,LogHistory.Holds crc ⟨w,l.appended++es.map Entry.value,
      if w.writeBuffer = [] then l.appended++es.map Entry.value else l.flushed⟩ (disk++more) rest := by
  rcases hstores with hnew | hnew
  · refine ⟨[],buffered++es,(List.append_nil disk).symm ▸ hnew,hmeasured,by simp [h.appended_eq],?_⟩
    dsimp only
    split
    · rename_i hempty
      rw [hnew.buffer,Wal.image_eq_nil,List.append_eq_nil_iff] at hempty
      simp [h.appended_eq,hempty.1,hempty.2]
    · rw [h.flushed_eq,List.append_nil]
  · have hempty : w.writeBuffer = [] := hnew.buffer
    exact ⟨buffered++es,[],hnew,hmeasured,by simp [h.appended_eq],by simp [h.appended_eq,hempty]⟩

/-- A write leaves the records of the file in place. -/
theorem Holds.write (h : l.Holds crc disk buffered) {a : LogAct} (hfits : ∀ op ∈ a.records,RecordFits cipher op) :
    ∃ more rest,(l.write crc a).Holds crc (disk++more) rest := by
  cases a with
  | append now ops isRemote =>
    obtain ⟨es,rfl,hnew⟩ := h.stores.appendAll hfits
    exact h.wrote ((h.measured.appendAll _).maybeSync now _ isRemote) (hnew.maybeSync now _ isRemote)
  | commit now txId ops isRemote =>
    obtain ⟨es,hes,hnew⟩ := h.stores.appendAll hfits
    have hwrote := h.wrote ((h.measured.appendAll _).maybeSync now true isRemote) (hnew.maybeSync now true isRemote)
    rw [hes] at hwrote
    exact hwrote
  | flush now =>
    have hnew : (l.wal.flush now).Stores crc (disk++(buffered++[])) [] := by
      rw [List.append_nil]
      exact h.stores.flush now
    exact h.wrote (h.measured.flush now) (.inr hnew)

/-- A new log that writes every append. -/
def newLog : Wal := Wal.openFile [] .always 1 none 0 0

theorem holds_newLog (crc : Bytes → UInt32) : Holds crc ⟨newLog,[],[]⟩ ([] : List (LogEntry none)) [] :=
  ⟨⟨rfl,rfl,rfl,Nat.le_refl 0,fun _ hb => absurd hb List.not_mem_nil⟩,rfl,rfl,rfl⟩

theorem append_newLog (crc : Bytes → UInt32) (op : WalOp) :
    newLog.appendBatch crc 0 [op] false =
      {newLog with file := frame crc op.encodeInto, cursor := 8+op.encodeInto.length, dataLen := 8+op.encodeInto.length} := by
  have hframe : frame crc op.encodeInto ≠ [] := by
    refine List.ne_nil_of_length_pos ?_
    rw [frame_length]
    omega
  simp [Wal.appendBatch,Wal.appendToBuffer,Wal.sealPayload,Wal.maybeSync,Wal.shouldFlush,Wal.flush,Wal.writeAll,newLog,
    Wal.openFile,writeAt,setLen,reservesForMode,hframe]

theorem write_newLog (crc : Bytes → UInt32) (op : WalOp) :
    write crc ⟨newLog,[],[]⟩ (.append 0 [op] false) = ⟨newLog.appendBatch crc 0 [op] false,[op],[op]⟩ := by
  have hbuffer : (newLog.appendBatch crc 0 [op] false).writeBuffer = [] := by
    rw [append_newLog]
    rfl
  simp [write,Wal.write,LogAct.records,hbuffer]

theorem reset_newLog (crc : Bytes → UInt32) (op : WalOp) : (newLog.appendBatch crc 0 [op] false).reset = newLog := by
  rw [append_newLog]
  rfl

/-- The reader of a new log gets its first record. -/
theorem tail_newLog (crc : Bytes → UInt32) {op : WalOp} (hfits : RecordFits none op) :
    (newLog.appendBatch crc 0 [op] false).tail crc 0 = .ok ([op],8+op.encodeInto.length) := by
  obtain ⟨more,rest,hnew⟩ := (holds_newLog crc).write (a := .append 0 [op] false) fun o ho => List.mem_singleton.1 ho ▸ hfits
  rw [write_newLog] at hnew
  have htail := hnew.stores.tail_boundary hnew.measured (List.nil_append _).symm
  rw [← hnew.flushed_eq,← hnew.stores.cursor_eq] at htail
  rw [append_newLog] at htail ⊢
  exact htail

/-- Behind that record there is none. -/
theorem tail_newLog_end (crc : Bytes → UInt32) (op : WalOp) :
    (newLog.appendBatch crc 0 [op] false).tail crc (8+op.encodeInto.length) = .ok ([],8+op.encodeInto.length) := by
  simp [append_newLog,Wal.tail,Wal.tailStart]

end LogHistory

end HakoDB
