import HakoDB.Lib.ByteCodec

/-! An append-only log of checksummed records behind an eight-byte header, and the
reader that stops at the first record it cannot accept. A cut log reads back as the
whole records before the cut. -/
namespace FramedLog
open ByteCodec

/-- What the content of one record turns out to be. -/
inductive Decoded (α ε : Type)
  | record (a : α)
  | stop
  | fail (e : ε)

/-- Why the reader stopped. -/
inductive Stop
  | shortHeader
  | padding
  | emptyRecord
  | shortPayload
  | badChecksum
  | undecodable
  deriving DecidableEq, Repr

structure Scan (α : Type) where
  records : List α
  consumed : ℕ
  stop : Stop

def Scan.push {α : Type} (a : α) (n : ℕ) (s : Scan α) : Scan α :=
  {s with records := a::s.records, consumed := n+s.consumed}

section
variable {α ε : Type} (crc : Bytes → UInt32) (decode : Bytes → Decoded α ε)

/-- Length and checksum, each four bytes, then the content. -/
def frame (p : Bytes) : Bytes := leBytes 4 p.length++leBytes 4 (crc p).toNat++p

@[simp] theorem frame_length (p : Bytes) : (frame crc p).length = 8+p.length := by
  simp [frame]
  omega

/-- Read records from the start of `bs` until one is not accepted. -/
def scan (bs : Bytes) : Except ε (Scan α) :=
  if _h : bs.length < 8 then .ok ⟨[],0,.shortHeader⟩
  else
    let len := leNat (bs.take 4)
    if (bs.take 8).all (· == 0) then .ok ⟨[],0,.padding⟩
    else if len = 0 then .ok ⟨[],0,.emptyRecord⟩
    else
      let payload := (bs.drop 8).take len
      if payload.length < len then .ok ⟨[],0,.shortPayload⟩
      else if (crc payload).toNat ≠ leNat ((bs.drop 4).take 4) then .ok ⟨[],0,.badChecksum⟩
      else match decode payload with
        | .fail e => .error e
        | .stop => .ok ⟨[],0,.undecodable⟩
        | .record a => (scan (bs.drop (8+len))).map (Scan.push a (8+len))
termination_by bs.length
decreasing_by simp; omega

theorem frame_take_four (p rest : Bytes) : (frame crc p++rest).take 4 = leBytes 4 p.length := by
  rw [frame,List.append_assoc,List.append_assoc,List.take_left' (leBytes_length 4 _)]

theorem frame_drop_four (p rest : Bytes) :
    ((frame crc p++rest).drop 4).take 4 = leBytes 4 (crc p).toNat := by
  rw [frame,List.append_assoc,List.append_assoc,List.drop_left' (leBytes_length 4 _),
    List.take_left' (leBytes_length 4 _)]

theorem frame_drop_eight (p rest : Bytes) : (frame crc p++rest).drop 8 = p++rest := by
  have hl : (leBytes 4 p.length++leBytes 4 (crc p).toNat).length = 8 := by simp
  rw [frame,List.append_assoc,List.drop_left' hl]

theorem leNat_pos_of_mem {bs : Bytes} (h : 0 < leNat bs) : ∃ b ∈ bs, b ≠ 0 := by
  induction bs with
  | nil => simp [leNat] at h
  | cons b bs ih =>
    by_cases hb : b = 0
    · subst hb
      obtain ⟨c,hc,h0⟩ := ih (by simpa [leNat] using h)
      exact ⟨c,List.mem_cons_of_mem _ hc,h0⟩
    · exact ⟨b,List.mem_cons_self,hb⟩

/-- A header with a positive length is not taken for padding. -/
theorem header_not_zero {bs : Bytes} (h : 0 < leNat (bs.take 4)) :
    (bs.take 8).all (· == 0) = false := by
  obtain ⟨b,hb,h0⟩ := leNat_pos_of_mem h
  have hm : b ∈ bs.take 8 := List.take_subset_take_left bs (by omega) hb
  exact List.all_eq_false.mpr ⟨b,hm,by simpa using h0⟩

end

/-- A record together with the facts that make the reader accept it. -/
structure Entry {α ε : Type} (decode : Bytes → Decoded α ε) where
  payload : Bytes
  value : α
  decodes : decode payload = .record value
  nonempty : 0 < payload.length
  small : payload.length < 2^32

section
variable {α ε : Type} (crc : Bytes → UInt32) {decode : Bytes → Decoded α ε}

def Entry.bytes (e : Entry decode) : Bytes := frame crc e.payload

/-- The file image of a list of records. -/
def image (log : List (Entry decode)) : Bytes := log.flatMap (Entry.bytes crc)

@[simp] theorem image_nil : image crc ([] : List (Entry decode)) = [] := rfl
@[simp] theorem image_cons (e : Entry decode) (log : List (Entry decode)) :
    image crc (e::log) = e.bytes crc++image crc log := rfl
@[simp] theorem image_append (xs ys : List (Entry decode)) :
    image crc (xs++ys) = image crc xs++image crc ys := List.flatMap_append
@[simp] theorem Entry.bytes_length (e : Entry decode) :
    (e.bytes crc).length = 8+e.payload.length := frame_length crc _

theorem Entry.leNat_length (e : Entry decode) : leNat (leBytes 4 e.payload.length) = e.payload.length :=
  leNat_leBytes_of_lt (by have := e.small; omega)

theorem leNat_crc (p : Bytes) : leNat (leBytes 4 (crc p).toNat) = (crc p).toNat :=
  leNat_leBytes_of_lt (by have := (crc p).toNat_lt; omega)

/-- A whole record is read and the reader goes on behind it. -/
theorem scan_entry (e : Entry decode) (rest : Bytes) :
    scan crc decode (e.bytes crc++rest) =
      (scan crc decode rest).map (Scan.push e.value (8+e.payload.length)) := by
  have hlen : leNat ((e.bytes crc++rest).take 4) = e.payload.length := by
    rw [Entry.bytes,frame_take_four,e.leNat_length]
  have hpay : ((e.bytes crc++rest).drop 8).take e.payload.length = e.payload := by
    rw [Entry.bytes,frame_drop_eight,List.take_left]
  have hcrc : leNat (((e.bytes crc++rest).drop 4).take 4) = (crc e.payload).toNat := by
    rw [Entry.bytes,frame_drop_four,leNat_crc]
  have hdrop : (e.bytes crc++rest).drop (8+e.payload.length) = rest :=
    List.drop_left' (e.bytes_length crc)
  have hzero := header_not_zero (hlen ▸ e.nonempty)
  have hge : ¬ (e.bytes crc++rest).length < 8 := by
    simp
    omega
  rw [scan]
  simp only [hlen,hpay,hcrc,hdrop,hzero,hge,e.decodes]
  simp [Nat.ne_of_gt e.nonempty]

/-- A record cut short is not read. -/
theorem scan_torn (e : Entry decode) {n : ℕ} (h : n < (e.bytes crc).length) :
    ∃ s, scan crc decode ((e.bytes crc).take n) = .ok ⟨[],0,s⟩ ∧ (s = .shortHeader ∨ s = .shortPayload) := by
  rw [scan]
  by_cases h8 : n < 8
  · have hl : ((e.bytes crc).take n).length < 8 := by simp; omega
    exact ⟨.shortHeader,by simp only [hl,dif_pos],Or.inl rfl⟩
  · have hl : ¬ ((e.bytes crc).take n).length < 8 := by simp at h ⊢; omega
    have hlen : leNat (((e.bytes crc).take n).take 4) = e.payload.length := by
      rw [List.take_take,Nat.min_eq_left (by omega)]
      have := frame_take_four crc e.payload []
      rw [List.append_nil] at this
      rw [Entry.bytes,this,e.leNat_length]
    have hzero := header_not_zero (hlen ▸ e.nonempty)
    have hshort : ((((e.bytes crc).take n).drop 8).take e.payload.length).length < e.payload.length := by
      simp at h ⊢
      omega
    refine ⟨.shortPayload,?_,Or.inr rfl⟩
    simp only [hl,hlen,hzero,hshort,dif_neg,if_true,Nat.ne_of_gt e.nonempty,if_false,not_false_eq_true,
      Bool.false_eq_true]

/-- The records that lie wholly within the first `n` bytes. -/
def wholeWithin (n : ℕ) : List (Entry decode) → List (Entry decode)
  | [] => []
  | e::log => if 8+e.payload.length ≤ n then e::wholeWithin (n-(8+e.payload.length)) log else []

/-- Reading a cut log returns its whole records and the length they take. -/
theorem scan_cut (log : List (Entry decode)) (n : ℕ) :
    ∃ s, scan crc decode ((image crc log).take n) =
        .ok ⟨(wholeWithin n log).map Entry.value,(image crc (wholeWithin n log)).length,s⟩ ∧
      (s = .shortHeader ∨ s = .shortPayload) := by
  induction log generalizing n with
  | nil =>
    refine ⟨.shortHeader,?_,Or.inl rfl⟩
    rw [scan]
    simp [wholeWithin]
  | cons e log ih =>
    by_cases h : 8+e.payload.length ≤ n
    · obtain ⟨s,hs,hstop⟩ := ih (n-(8+e.payload.length))
      refine ⟨s,?_,hstop⟩
      rw [image_cons,List.take_append,List.take_of_length_le (by simpa using h),
        Entry.bytes_length,scan_entry,hs]
      simp [wholeWithin,h,Except.map,Scan.push]
    · obtain ⟨s,hs,hstop⟩ := scan_torn crc e (n := n) (by simp; omega)
      refine ⟨s,?_,hstop⟩
      rw [image_cons,List.take_append_of_le_length (by simp; omega),hs]
      simp [wholeWithin,h]

/-- Zeros behind the records are taken for padding or for too short a header. -/
theorem scan_padded (log : List (Entry decode)) (k : ℕ) :
    ∃ s, scan crc decode (image crc log++List.replicate k 0) =
        .ok ⟨log.map Entry.value,(image crc log).length,s⟩ ∧ (s = .padding ∨ s = .shortHeader) := by
  induction log with
  | nil =>
    rw [scan]
    by_cases h : k < 8
    · exact ⟨.shortHeader,by simp [h],Or.inr rfl⟩
    · exact ⟨.padding,by simp [h],Or.inl rfl⟩
  | cons e log ih =>
    obtain ⟨s,hs,hstop⟩ := ih
    refine ⟨s,?_,hstop⟩
    rw [image_cons,List.append_assoc,scan_entry,hs]
    simp [Except.map,Scan.push]

theorem wholeWithin_image_length (log : List (Entry decode)) (n : ℕ) :
    (image crc (wholeWithin n log)).length ≤ n := by
  induction log generalizing n with
  | nil => simp [wholeWithin]
  | cons e log ih =>
    by_cases h : 8+e.payload.length ≤ n
    · have := ih (n-(8+e.payload.length))
      simp [wholeWithin,h]
      omega
    · simp [wholeWithin,h]

theorem wholeWithin_append (xs ys : List (Entry decode)) (n : ℕ) :
    wholeWithin n (xs++ys) = if (image crc xs).length ≤ n then
      xs++wholeWithin (n-(image crc xs).length) ys else wholeWithin n xs := by
  induction xs generalizing n with
  | nil => simp
  | cons e xs ih =>
    by_cases h : 8+e.payload.length ≤ n
    · have hle : (image crc xs).length ≤ n-(8+e.payload.length) ↔
          8+e.payload.length+(image crc xs).length ≤ n := by omega
      have hsub : n-(8+e.payload.length)-(image crc xs).length =
          n-(8+e.payload.length+(image crc xs).length) := by omega
      simp only [List.cons_append,wholeWithin,h,if_true,ih,hle,image_cons,List.length_append,
        Entry.bytes_length,hsub]
      split <;> rfl
    · have hn : ¬ 8+e.payload.length+(image crc xs).length ≤ n := by omega
      simp [wholeWithin,h,hn]

/-- A cut that leaves all the bytes leaves all the records. -/
theorem wholeWithin_of_le {log : List (Entry decode)} {n : ℕ} (h : (image crc log).length ≤ n) :
    wholeWithin n log = log := by
  have := wholeWithin_append crc log [] n
  simpa [h,wholeWithin] using this

/-- The whole records form a front part of the log. -/
theorem wholeWithin_isPrefix (log : List (Entry decode)) (n : ℕ) : wholeWithin n log <+: log := by
  induction log generalizing n with
  | nil => simp [wholeWithin]
  | cons e log ih =>
    by_cases h : 8+e.payload.length ≤ n
    · simpa [wholeWithin,h] using ih (n-(8+e.payload.length))
    · simp [wholeWithin,h]

end

end FramedLog
