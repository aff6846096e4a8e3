import HakoDB.Lib.FramedLog
import HakoDB.Storage.Crypto
import HakoDB.Storage.WalOp

/-! The write-ahead log: buffered appends, the flush rule of each durability mode,
recovery by replay and the transaction filter. -/
namespace HakoDB
open ByteCodec

structure Wal where
  file : Bytes
  cursor : ℕ
  mode : DurabilityMode
  groupCommitMaxOps : ℕ
  pendingOpsSinceSync : ℕ
  encryption : Option EncryptionContext
  writeBuffer : Bytes
  lastSync : ℕ
  groupCommitInterval : ℕ
  strictInterval : Bool
  reserveBytes : ℕ
  dataLen : ℕ

/-- Grow a file with zeros or cut it. -/
def setLen (n : ℕ) (file : Bytes) : Bytes := file.take n++List.replicate (n-file.length) 0

/-- Write at a cursor, over what stands there. -/
def writeAt (cursor : ℕ) (bs file : Bytes) : Bytes :=
  setLen cursor file++bs++file.drop (cursor+bs.length)

def reservesForMode : DurabilityMode → Bool
  | .always | .onCommit => true
  | .interval | .manual => false

def strictEmergencyBytes : ℕ := 16*1024*1024

/-- A batch stands between its two transaction markers. -/
def txRecords (txId : UInt64) (ops : List WalOp) : List WalOp := .beginTx txId::(ops++[.commitTx txId])

namespace Wal

/-- Times are in milliseconds; `now` is the clock at the call. -/
def openFile (file : Bytes) (mode : DurabilityMode) (groupCommitMaxOps : ℕ)
    (encryption : Option EncryptionContext) (reserveBytes now : ℕ) : Wal where
  file := if reservesForMode mode ∧ 0 < reserveBytes ∧ file.length < reserveBytes then
    setLen reserveBytes file else file
  cursor := file.length
  mode := mode
  groupCommitMaxOps := max groupCommitMaxOps 1
  pendingOpsSinceSync := 0
  encryption := encryption
  writeBuffer := []
  lastSync := now
  groupCommitInterval := 5
  strictInterval := false
  reserveBytes := reserveBytes
  dataLen := 0

def sealPayload (encryption : Option EncryptionContext) (p : Bytes) : Bytes :=
  match encryption with
  | some ctx => ctx.encrypt p
  | none => p

variable (crc : Bytes → UInt32)

def appendToBuffer (w : Wal) (op : WalOp) : Wal :=
  {w with
    writeBuffer := w.writeBuffer++FramedLog.frame crc (sealPayload w.encryption op.encodeInto)
    encryption := w.encryption.map EncryptionContext.advance
    pendingOpsSinceSync := w.pendingOpsSinceSync+1}

/-- The buffer goes to the file at the cursor. -/
def writeAll (w : Wal) : Wal :=
  {w with
    file := writeAt w.cursor w.writeBuffer w.file
    cursor := w.cursor+w.writeBuffer.length
    writeBuffer := []
    dataLen := w.cursor+w.writeBuffer.length}

def flush (now : ℕ) (w : Wal) : Wal :=
  if w.writeBuffer = [] then w
  else {w.writeAll with pendingOpsSinceSync := 0, lastSync := now}

def shouldFlush (now : ℕ) (isCommit : Bool) (w : Wal) : Bool :=
  match w.mode with
  | .always => true
  | .onCommit => isCommit
  | .interval =>
    if w.strictInterval then
      isCommit && (decide (w.groupCommitInterval ≤ now-w.lastSync) ||
        decide (strictEmergencyBytes < w.writeBuffer.length))
    else
      isCommit && (decide (w.groupCommitMaxOps ≤ w.pendingOpsSinceSync) ||
        decide (w.groupCommitInterval ≤ now-w.lastSync) || decide (124*1024 < w.writeBuffer.length))
  | .manual => false

def maybeSync (now : ℕ) (isCommit isRemote : Bool) (w : Wal) : Wal :=
  if isRemote && w.mode ≠ .always then w.writeAll
  else if w.shouldFlush now isCommit then w.flush now
  else w

/-- The tick flushes a buffer whose own window has passed. -/
def shouldTickFlush (now : ℕ) (w : Wal) : Bool :=
  w.mode = .interval && !w.writeBuffer.isEmpty && decide (w.groupCommitInterval ≤ now-w.lastSync)

def setDurabilityMode (mode : DurabilityMode) (w : Wal) : Wal := {w with mode := mode}

/-- The window is clamped, and any but the default one makes the clock the only trigger. -/
def setGroupCommitInterval (ms : ℕ) (w : Wal) : Wal :=
  let ms := min (max ms 1) 30000
  {w with groupCommitInterval := ms, strictInterval := ms ≠ 5}

/-- Records of a snapshot or of a replicated batch, without transaction markers of their own. -/
def appendBatch (now : ℕ) (ops : List WalOp) (isRemote : Bool) (w : Wal) : Wal :=
  (ops.foldl (appendToBuffer crc) w).maybeSync now (ops.any WalOp.isCommit) isRemote

def appendBatchFast (now : ℕ) (txId : UInt64) (ops : List WalOp) (isRemote : Bool) (w : Wal) : Wal :=
  ((txRecords txId ops).foldl (appendToBuffer crc) w).maybeSync now true isRemote

def reset (w : Wal) : Wal :=
  {w with
    writeBuffer := []
    file := if reservesForMode w.mode ∧ 0 < w.reserveBytes then setLen w.reserveBytes [] else []
    cursor := 0
    pendingOpsSinceSync := 0
    dataLen := 0}

end Wal

/-- The transaction filter's state while it runs over the raw records. -/
structure TxFilter where
  output : List WalOp
  currentTx : Option UInt64
  txOps : List WalOp

namespace TxFilter

def step (s : TxFilter) (op : WalOp) : TxFilter :=
  match op with
  | .beginTx txId => {s with currentTx := some txId, txOps := []}
  | .commitTx txId =>
    {output := if s.currentTx = some txId then s.output++s.txOps else s.output, currentTx := none, txOps := []}
  | op => if s.currentTx.isSome then {s with txOps := s.txOps++[op]} else {s with output := s.output++[op]}

def init : TxFilter := ⟨[],none,[]⟩

end TxFilter

def filterCommittedOps (rawOps : List WalOp) : List WalOp := (rawOps.foldl TxFilter.step TxFilter.init).output

/-- Decryption and decoding of one record's content. -/
def decodePayload (cipher : Option Cipher) (payload : Bytes) : FramedLog.Decoded WalOp Fault :=
  match cipher with
  | some cipher =>
    match cipher.open' payload with
    | .error _ => .fail (.error (.corrupt "Decryption failed. Wrong encryption key?"))
    | .ok p =>
      match WalOp.decode p with
      | .ok op => .record op
      | .error .panic => .fail .panic
      | .error (.error _) => .stop
  | none =>
    match WalOp.decode payload with
    | .ok op => .record op
    | .error .panic => .fail .panic
    | .error (.error _) =>
      .fail (.error (.corrupt "Recognized valid data but failed to decode. Is this collection encrypted?"))

namespace Wal
variable (crc : Bytes → UInt32)

/-- Read the records from the start, cut off what follows them unless it is padding, and go on
appending there. -/
def replay (w : Wal) : Res (List WalOp × Wal) := do
  let s ← FramedLog.scan crc (decodePayload (w.encryption.map EncryptionContext.cipher)) w.file
  let file := if s.consumed < w.file.length ∧ s.stop ≠ .padding then w.file.take s.consumed else w.file
  return (filterCommittedOps s.records,{w with file := file, cursor := s.consumed, dataLen := s.consumed})

end Wal

namespace TxFilter

variable {ops : List WalOp} {txId : UInt64} {op : WalOp}

theorem foldl_data (hd : ∀ op ∈ ops, op.isData) (s : TxFilter) (hs : s.currentTx = some txId) :
    ops.foldl step s = {s with txOps := s.txOps++ops} := by
  induction ops generalizing s with
  | nil => simp
  | cons op ops ih =>
    have hop : s.step op = {s with txOps := s.txOps++[op]} := by
      have := hd op List.mem_cons_self
      cases op <;> simp_all [step,WalOp.isData,WalOp.key?]
    rw [List.foldl_cons,hop,
      ih (fun o ho => hd o (List.mem_cons_of_mem _ ho)) {s with txOps := s.txOps++[op]} hs]
    simp

/-- A whole batch hands over its operations, whatever stood open before it. -/
theorem foldl_txRecords (hd : ∀ op ∈ ops, op.isData) (s : TxFilter) (txId : UInt64) :
    (txRecords txId ops).foldl step s = ⟨s.output++ops,none,[]⟩ := by
  rw [txRecords,List.foldl_cons,List.foldl_append,foldl_data hd (s.step (.beginTx txId)) rfl]
  simp [step]

/-- The front part of a batch hands over nothing as long as its commit is missing. -/
theorem foldl_torn (hd : ∀ op ∈ ops, op.isData) (s : TxFilter) {front : List WalOp}
    (hf : front <+: txRecords txId ops) (hn : front ≠ txRecords txId ops) :
    (front.foldl step s).output = s.output := by
  cases front with
  | nil => rfl
  | cons op front =>
    obtain ⟨hop,hfront⟩ := List.cons_prefix_cons.mp hf
    subst hop
    have hfo : front <+: ops := by
      rcases List.prefix_concat_iff.mp hfront with h | h
      · exact absurd (by rw [h,txRecords]) hn
      · exact h
    rw [List.foldl_cons,foldl_data (fun o ho => hd o (hfo.subset ho)) (s.step (.beginTx txId)) rfl]
    rfl

end TxFilter

end HakoDB
