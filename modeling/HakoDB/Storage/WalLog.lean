import HakoDB.Storage.Wal

/-! What a log holds: the records written to its file or waiting in its buffer, in order. Appends
add records, flushes keep them, and a replay returns them through the transaction filter. -/
namespace HakoDB
open ByteCodec FramedLog

abbrev LogEntry (cipher : Option Cipher) := Entry (decodePayload cipher)

/-- The length of a record's content once it is encrypted. -/
def sealedLength (cipher : Option Cipher) (n : ℕ) : ℕ := if cipher.isSome then n+28 else n

/-- The lengths that a record stores in sixteen and thirty-two bits are its real ones. -/
structure RecordFits (cipher : Option Cipher) (op : WalOp) : Prop where
  key : ∀ key, op.key? = some key → (asBytes key).length < 2^16
  payload : sealedLength cipher op.encodeInto.length < 2^32

variable {cipher : Option Cipher} {op : WalOp}

theorem RecordFits.fits (h : RecordFits cipher op) : op.Fits := by
  refine ⟨h.key,?_⟩
  rintro key value rfl
  have hp := h.payload
  simp only [sealedLength,WalOp.encodeInto,List.length_cons,List.length_append] at hp
  split at hp <;> omega

theorem recordFits_marker (h : op.isData = false) :
    RecordFits cipher op := by
  cases op <;> simp_all [WalOp.isData,WalOp.key?]
  all_goals
    refine ⟨by simp [WalOp.key?],?_⟩
    simp only [sealedLength,WalOp.encodeInto,List.length_cons,leBytes_length]
    split <;> omega

/-- Every record but an inlined put is short once its key is. -/
theorem recordFits_of_key (hkey : ∀ key, op.key? = some key → (asBytes key).length < 2^16)
    (hvalue : ∀ key value, op = .putInlined key value → value.length < 2^16) : RecordFits cipher op := by
  have hlen : op.encodeInto.length < 2^20 := by
    cases op with
    | beginTx txId => simp [WalOp.encodeInto]
    | commitTx txId => simp [WalOp.encodeInto]
    | putInlined key value =>
      have := hkey key rfl
      have := hvalue key value rfl
      simp only [WalOp.encodeInto,WalOp.encodeKey,List.length_cons,List.length_append,leBytes_length]
      omega
    | put key _ _ _ =>
      have := hkey key rfl
      simp only [WalOp.encodeInto,WalOp.encodeKey,List.length_cons,List.length_append,leBytes_length]
      omega
    | delete key _ =>
      have := hkey key rfl
      simp only [WalOp.encodeInto,WalOp.encodeKey,List.length_cons,List.length_append,leBytes_length,
        i64Bytes_length]
      omega
    | putBlob key _ _ =>
      have := hkey key rfl
      simp only [WalOp.encodeInto,WalOp.encodeKey,List.length_cons,List.length_append,leBytes_length]
      omega
  refine ⟨hkey,?_⟩
  unfold sealedLength
  split <;> omega

theorem recordFits_txRecords {ops : List WalOp} {txId : UInt64} (h : ∀ op ∈ ops, RecordFits cipher op) :
    ∀ op ∈ txRecords txId ops, RecordFits cipher op := by
  intro op hop
  simp only [txRecords,List.mem_cons,List.mem_append,List.not_mem_nil,or_false] at hop
  rcases hop with rfl | hop | rfl
  · exact recordFits_marker rfl
  · exact h op hop
  · exact recordFits_marker rfl

theorem sealPayload_length (enc : Option EncryptionContext) (p : Bytes) :
    (Wal.sealPayload enc p).length = sealedLength (enc.map EncryptionContext.cipher) p.length := by
  cases enc <;> simp [Wal.sealPayload,sealedLength,EncryptionContext.encrypt_length]

theorem decodePayload_sealPayload (enc : Option EncryptionContext) (h : op.Fits) :
    decodePayload (enc.map EncryptionContext.cipher) (Wal.sealPayload enc op.encodeInto) = .record op := by
  cases enc <;>
    simp [decodePayload,Wal.sealPayload,Cipher.open'_encrypt,WalOp.decode_encodeInto h]

/-- The record that an append writes. -/
def logEntry (enc : Option EncryptionContext) (op : WalOp)
    (h : RecordFits (enc.map EncryptionContext.cipher) op) :
    LogEntry (enc.map EncryptionContext.cipher) where
  payload := Wal.sealPayload enc op.encodeInto
  value := op
  decodes := decodePayload_sealPayload enc h.fits
  nonempty := by
    have := op.encodeInto_length_pos
    rw [sealPayload_length,sealedLength]
    split <;> omega
  small := by
    rw [sealPayload_length]
    exact h.payload

/-- The record's lengths are its real ones, whether it is encrypted or not. -/
structure WalOp.Short (op : WalOp) : Prop where
  key : ∀ key,op.key? = some key → (asBytes key).length < 2^16
  payload : op.encodeInto.length+28 < 2^32

theorem WalOp.Short.fits {op : WalOp} (h : op.Short) (cipher : Option Cipher) : RecordFits cipher op := by
  refine ⟨h.key,?_⟩
  have := h.payload
  unfold sealedLength
  split <;> omega

namespace Wal
variable (crc : Bytes → UInt32) {cipher : Option Cipher}

/-- The file up to the cursor and the buffer are the records of `log`; only zeros stand behind. -/
structure Holds (w : Wal) (log : List (LogEntry cipher)) : Prop where
  cipher_eq : w.encryption.map EncryptionContext.cipher = cipher
  bytes : w.file.take w.cursor++w.writeBuffer = image crc log
  cursor_le : w.cursor ≤ w.file.length
  padding : ∀ b ∈ w.file.drop w.cursor, b = 0

variable {crc} {w : Wal} {log : List (LogEntry cipher)}

/-- The end of the last record, counted from the start of the file. -/
theorem Holds.end_eq (h : w.Holds crc log) : w.cursor+w.writeBuffer.length = (image crc log).length := by
  have := congrArg List.length h.bytes
  simp only [List.length_append,List.length_take,Nat.min_eq_left h.cursor_le] at this
  exact this

/-- A reset log holds nothing. -/
theorem reset_holds (hc : w.encryption.map EncryptionContext.cipher = cipher) :
    w.reset.Holds crc ([] : List (LogEntry cipher)) := by
  refine ⟨hc,rfl,Nat.zero_le _,?_⟩
  simp only [reset,List.drop_zero]
  split
  · simp [setLen]
  · simp

variable {op : WalOp} {ops : List WalOp}

/-- An append adds whatever record its bytes are read back as. -/
theorem Holds.appendEntry (h : w.Holds crc log) {e : LogEntry cipher}
    (he : e.payload = Wal.sealPayload w.encryption op.encodeInto) :
    (w.appendToBuffer crc op).Holds crc (log++[e]) := by
  refine ⟨?_,?_,h.cursor_le,h.padding⟩
  · rw [← h.cipher_eq]
    simp only [Wal.appendToBuffer,Option.map_map]
    rfl
  · rw [image_append,← h.bytes]
    simp [Wal.appendToBuffer,Entry.bytes,he]

theorem Holds.appendToBuffer (h : w.Holds crc log) (hop : RecordFits cipher op) :
    ∃ e : LogEntry cipher, e.value = op ∧ (w.appendToBuffer crc op).Holds crc (log++[e]) := by
  obtain rfl := h.cipher_eq
  exact ⟨logEntry w.encryption op hop,rfl,h.appendEntry rfl⟩

theorem Holds.appendAll (h : w.Holds crc log) (hops : ∀ op ∈ ops, RecordFits cipher op) :
    ∃ es : List (LogEntry cipher), es.map Entry.value = ops ∧
      (ops.foldl (Wal.appendToBuffer crc) w).Holds crc (log++es) := by
  induction ops generalizing w log with
  | nil => exact ⟨[],rfl,by simpa using h⟩
  | cons op ops ih =>
    obtain ⟨e,he,h1⟩ := h.appendToBuffer (hops op List.mem_cons_self)
    obtain ⟨es,hes,h2⟩ := ih h1 (fun o ho => hops o (List.mem_cons_of_mem _ ho))
    exact ⟨e::es,by simp [he,hes],by simpa using h2⟩

theorem Holds.writeAll (h : w.Holds crc log) : w.writeAll.Holds crc log := by
  have hset : setLen w.cursor w.file = w.file.take w.cursor := by
    simp [setLen,Nat.sub_eq_zero_of_le h.cursor_le]
  have hlen : (w.file.take w.cursor++w.writeBuffer).length = w.cursor+w.writeBuffer.length := by
    simp [Nat.min_eq_left h.cursor_le]
  refine ⟨h.cipher_eq,?_,?_,?_⟩
  · simp only [Wal.writeAll,writeAt,hset,List.append_nil]
    rw [List.take_left' hlen,h.bytes]
  · simp only [Wal.writeAll,writeAt,hset,List.length_append]
    simp only [List.length_append] at hlen
    omega
  · simp only [Wal.writeAll,writeAt,hset]
    rw [List.drop_left' hlen,← List.drop_drop]
    exact fun b hb => h.padding b (List.mem_of_mem_drop hb)

theorem Holds.flush (h : w.Holds crc log) (now : ℕ) : (w.flush now).Holds crc log := by
  unfold Wal.flush
  split
  · exact h
  · exact ⟨h.writeAll.cipher_eq,h.writeAll.bytes,h.writeAll.cursor_le,h.writeAll.padding⟩

theorem flush_writeBuffer (w : Wal) (now : ℕ) : (w.flush now).writeBuffer = [] := by
  unfold Wal.flush
  split <;> simp_all [Wal.writeAll]

theorem Holds.maybeSync (h : w.Holds crc log) (now : ℕ) (isCommit isRemote : Bool) :
    (w.maybeSync now isCommit isRemote).Holds crc log := by
  unfold Wal.maybeSync
  split
  · exact h.writeAll
  · split
    · exact h.flush now
    · exact h

/-- A batch adds its records between the two markers. -/
theorem Holds.appendBatchFast (h : w.Holds crc log) (now : ℕ) (txId : UInt64) (isRemote : Bool)
    (hops : ∀ op ∈ ops, RecordFits cipher op) :
    ∃ es : List (LogEntry cipher), es.map Entry.value = txRecords txId ops ∧
      (w.appendBatchFast crc now txId ops isRemote).Holds crc (log++es) := by
  obtain ⟨es,hes,h1⟩ := h.appendAll (recordFits_txRecords hops)
  exact ⟨es,hes,h1.maybeSync now true isRemote⟩

/-- The replay of whole records with zeros behind them returns the committed ones, and the log goes on
behind the last. -/
theorem replay_image (hc : w.encryption.map EncryptionContext.cipher = cipher) (hb : w.writeBuffer = [])
    {n : ℕ} (hfile : w.file = image crc log++List.replicate n 0) :
    ∃ w', w.replay crc = .ok (filterCommittedOps (log.map Entry.value),w') ∧ w'.Holds crc log ∧
      w'.writeBuffer = [] := by
  obtain ⟨s,hs,hstop⟩ := scan_padded crc log n
  rw [← hfile] at hs
  unfold Wal.replay
  rw [hc,hs]
  simp only [bind,Except.bind,pure,Except.pure,Except.ok.injEq,Prod.mk.injEq,true_and,exists_eq_left']
  have htake : w.file.take (image crc log).length = image crc log := by
    rw [hfile,List.take_left]
  refine ⟨⟨hc,?_,?_,?_⟩,hb⟩
  all_goals
    simp only [hb,List.append_nil]
    split
  · rw [List.take_take,Nat.min_self,htake]
  · exact htake
  · simp [hfile]
  · simp [hfile]
  · simp
  · rw [hfile,List.drop_left]
    exact fun b hb => List.eq_of_mem_replicate hb

/-- Once everything is in the file, it is the records with zeros behind them. -/
theorem Holds.file_eq (h : w.Holds crc log) (hb : w.writeBuffer = []) :
    w.file = image crc log++List.replicate (w.file.length-w.cursor) 0 := by
  have hz : w.file.drop w.cursor = List.replicate (w.file.length-w.cursor) 0 :=
    List.eq_replicate_iff.mpr ⟨by simp,h.padding⟩
  rw [← hz,← h.bytes,hb,List.append_nil,List.take_append_drop]

theorem Holds.replay (h : w.Holds crc log) (hb : w.writeBuffer = []) :
    ∃ w', w.replay crc = .ok (filterCommittedOps (log.map Entry.value),w') ∧ w'.Holds crc log ∧
      w'.writeBuffer = [] :=
  replay_image h.cipher_eq hb (h.file_eq hb)

end Wal

end HakoDB
