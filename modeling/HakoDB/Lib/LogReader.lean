import HakoDB.Lib.FramedLog

/-! What the reader of a log has found when it stops. A log is the accepted records and a rest, and the rest says
why the reader went no further. -/
namespace FramedLog
open ByteCodec

/-- A number is written in one way only. -/
theorem leBytes_leNat (bs : Bytes) : leBytes bs.length (leNat bs) = bs := by
  induction bs with
  | nil => rfl
  | cons b bs ih =>
    have hb := b.toNat_lt
    have hdiv : (b.toNat+256*leNat bs)/256 = leNat bs := by omega
    have hmod : UInt8.ofNat (b.toNat+256*leNat bs) = b := by
      rw [← UInt8.toNat_inj,UInt8.toNat_ofNat']
      omega
    rw [List.length_cons,leNat,leBytes,hdiv,hmod,ih]

theorem leBytes_of_length {bs : Bytes} {w : ℕ} (h : bs.length = w) : leBytes w (leNat bs) = bs := h ▸ leBytes_leNat bs

section
variable {α ε : Type} (crc : Bytes → UInt32) (decode : Bytes → Decoded α ε)

/-- The length that a header tells. -/
def announced (bs : Bytes) : ℕ := leNat (bs.take 4)

/-- The checksum that a header tells. -/
def storedSum (bs : Bytes) : ℕ := leNat ((bs.drop 4).take 4)

/-- The content behind a header. -/
def content (bs : Bytes) : Bytes := (bs.drop 8).take (announced bs)

/-- The bytes end within a record. -/
def Incomplete (bs : Bytes) : Prop := bs.length < 8+announced bs

/-- A record with another checksum than its header tells. -/
def Mismatched (bs : Bytes) : Prop := 8+announced bs ≤ bs.length ∧ (crc (content bs)).toNat ≠ storedSum bs

/-- A content whose length a header can tell. -/
structure Framable (p : Bytes) : Prop where
  nonempty : 0 < p.length
  small : p.length < 2^32

/-- The reader goes no further into these bytes. -/
def StopsAt (bs : Bytes) : Stop → Prop
  | .shortHeader => bs.length < 8
  | .padding => 8 ≤ bs.length ∧ (bs.take 8).all (· == 0) = true
  | .emptyRecord => 8 ≤ bs.length ∧ (bs.take 8).all (· == 0) = false ∧ announced bs = 0
  | .shortPayload => 8 ≤ bs.length ∧ Incomplete bs
  | .badChecksum => 0 < announced bs ∧ Mismatched crc bs
  | .undecodable => ∃ p rest,Framable p ∧ bs = frame crc p++rest ∧ decode p = .stop

variable {crc decode}

theorem announced_lt (bs : Bytes) : announced bs < 2^32 := by
  have hlt := leNat_lt (bs.take 4)
  have hpow : 256^(bs.take 4).length ≤ 256^4 := Nat.pow_le_pow_right (by omega) (by simp)
  unfold announced
  omega

variable {bs p : Bytes}

theorem content_length (h : 8+announced bs ≤ bs.length) : (content bs).length = announced bs := by
  simp [content]
  omega

/-- A record with its checksum is a frame. -/
theorem frame_content (hlen : 8+announced bs ≤ bs.length) (hcrc : (crc (content bs)).toNat = storedSum bs) :
    bs = frame crc (content bs)++bs.drop (8+announced bs) := by
  have hhead : leBytes 4 (content bs).length = bs.take 4 := by
    rw [content_length hlen]
    exact leBytes_of_length (by simp; omega)
  have hsum : leBytes 4 (crc (content bs)).toNat = (bs.drop 4).take 4 := by
    rw [hcrc]
    exact leBytes_of_length (by simp; omega)
  have hrest : content bs++bs.drop (8+announced bs) = bs.drop 8 := by
    rw [content,← List.drop_drop,List.take_append_drop]
  have hmid : (bs.drop 4).take 4++bs.drop 8 = bs.drop 4 := by
    rw [show bs.drop 8 = (bs.drop 4).drop 4 by rw [List.drop_drop],List.take_append_drop]
  rw [frame,hhead,hsum,List.append_assoc,List.append_assoc,hrest,hmid,List.take_append_drop]

/-- How the reader goes on behind a record of `n` bytes. -/
def resume (rest : Except ε (Scan α)) (n : ℕ) : Decoded α ε → Except ε (Scan α)
  | .fail e => .error e
  | .stop => .ok ⟨[],0,.undecodable⟩
  | .record a => rest.map (Scan.push a n)

theorem scan_frame {rest : Bytes} (hp : Framable p) :
    scan crc decode (frame crc p++rest) = resume (scan crc decode rest) (8+p.length) (decode p) := by
  have hlen : leNat ((frame crc p++rest).take 4) = p.length := by
    rw [frame_take_four,leNat_leBytes_of_lt (by have := hp.small; omega)]
  have hpay : ((frame crc p++rest).drop 8).take p.length = p := by rw [frame_drop_eight,List.take_left]
  have hcrc : leNat (((frame crc p++rest).drop 4).take 4) = (crc p).toNat := by rw [frame_drop_four,leNat_crc]
  have hdrop : (frame crc p++rest).drop (8+p.length) = rest := List.drop_left' (frame_length crc p)
  have hzero := header_not_zero (hlen ▸ hp.nonempty)
  have hge : ¬(frame crc p++rest).length < 8 := by
    simp
    omega
  rw [scan]
  simp only [hlen,hpay,hcrc,hdrop,hzero,hge]
  simp only [dif_neg,not_false_eq_true,Bool.false_eq_true,if_false,Nat.ne_of_gt hp.nonempty,lt_irrefl,ne_eq,not_true_eq_false]
  cases decode p <;> rfl

/-- Why the first turn of the reader is its last. -/
theorem stop_cases (crc : Bytes → UInt32) (decode : Bytes → Decoded α ε) (bs : Bytes) :
    (∃ stop,StopsAt crc decode bs stop ∧ scan crc decode bs = .ok ⟨[],0,stop⟩) ∨
    ∃ p rest,Framable p ∧ bs = frame crc p++rest ∧ decode p ≠ .stop := by
  by_cases h8 : bs.length < 8
  · refine .inl ⟨.shortHeader,h8,?_⟩
    rw [scan,dif_pos h8]
  by_cases hzero : (bs.take 8).all (· == 0) = true
  · refine .inl ⟨.padding,⟨by omega,hzero⟩,?_⟩
    rw [scan,dif_neg h8,if_pos hzero]
  by_cases hempty : announced bs = 0
  · refine .inl ⟨.emptyRecord,⟨by omega,by simpa using hzero,hempty⟩,?_⟩
    rw [scan,dif_neg h8,if_neg hzero,if_pos (show leNat (bs.take 4) = 0 from hempty)]
  have hlen : ¬leNat (bs.take 4) = 0 := hempty
  by_cases hshort : bs.length < 8+announced bs
  · refine .inl ⟨.shortPayload,⟨by omega,hshort⟩,?_⟩
    have hcut : ((bs.drop 8).take (leNat (bs.take 4))).length < leNat (bs.take 4) := by
      unfold announced at hshort
      simp
      omega
    rw [scan,dif_neg h8,if_neg hzero,if_neg hlen,if_pos hcut]
  have hwhole : 8+announced bs ≤ bs.length := by omega
  have hlength : ¬((bs.drop 8).take (leNat (bs.take 4))).length < leNat (bs.take 4) :=
    Nat.not_lt.2 (content_length hwhole).ge
  by_cases hcrc : (crc (content bs)).toNat = storedSum bs
  · have hframe := frame_content hwhole hcrc
    have hp : Framable (content bs) := ⟨by rw [content_length hwhole]; omega,by rw [content_length hwhole]; exact announced_lt bs⟩
    by_cases hstop : decode (content bs) = .stop
    · refine .inl ⟨.undecodable,⟨_,_,hp,hframe,hstop⟩,?_⟩
      rw [hframe,scan_frame hp,hstop]
      rfl
    · exact .inr ⟨_,_,hp,hframe,hstop⟩
  · refine .inl ⟨.badChecksum,⟨by omega,hwhole,hcrc⟩,?_⟩
    rw [scan,dif_neg h8,if_neg hzero,if_neg hlen,if_neg hlength]
    exact if_pos hcrc

/-- The reader behind a run of accepted records. -/
def Scan.behind (crc : Bytes → UInt32) (log : List (Entry decode)) (s : Scan α) : Scan α :=
  ⟨log.map Entry.value++s.records,(image crc log).length+s.consumed,s.stop⟩

theorem scan_image (log : List (Entry decode)) (rest : Bytes) :
    scan crc decode (image crc log++rest) = (scan crc decode rest).map (Scan.behind crc log) := by
  induction log with
  | nil =>
    rw [image_nil,List.nil_append]
    cases scan crc decode rest with
    | error e => rfl
    | ok s => simp [Except.map,Scan.behind]
  | cons e log ih =>
    rw [image_cons,List.append_assoc,scan_entry,ih]
    cases scan crc decode rest with
    | error e => rfl
    | ok s => simp [Except.map,Scan.behind,Scan.push,Nat.add_assoc]

/-- A log is a run of accepted records and a rest at which the reader stops or fails. -/
theorem exists_run (crc : Bytes → UInt32) (decode : Bytes → Decoded α ε) (bs : Bytes) :
    ∃ (log : List (Entry decode)) (rest : Bytes),bs = image crc log++rest ∧
    ((∃ stop,StopsAt crc decode rest stop ∧ scan crc decode rest = .ok ⟨[],0,stop⟩) ∨
      ∃ p back e,Framable p ∧ rest = frame crc p++back ∧ decode p = .fail e) := by
  induction hn : bs.length using Nat.strong_induction_on generalizing bs with
  | _ n ih =>
    rcases stop_cases crc decode bs with hstop | ⟨p,rest,hp,rfl,hdecode⟩
    · exact ⟨[],bs,rfl,.inl hstop⟩
    cases hd : decode p with
    | stop => exact absurd hd hdecode
    | fail e => exact ⟨[],_,rfl,.inr ⟨p,rest,e,hp,rfl,hd⟩⟩
    | record a =>
      have hshorter : rest.length < n := by
        rw [← hn]
        simp
      obtain ⟨log,back,hrest,hend⟩ := ih rest.length hshorter rest rfl
      refine ⟨⟨p,a,hd,hp.nonempty,hp.small⟩::log,back,?_,hend⟩
      rw [image_cons,List.append_assoc,← hrest,Entry.bytes]

/-- The reader fails exactly at a whole record, behind accepted ones, whose content fails. -/
theorem scan_error_iff {e : ε} : scan crc decode bs = .error e ↔
    ∃ (log : List (Entry decode)) (p rest : Bytes),Framable p ∧ bs = image crc log++(frame crc p++rest) ∧ decode p = .fail e := by
  constructor
  · intro h
    obtain ⟨log,rest,hbs,⟨stop,-,hscan⟩ | ⟨p,back,e',hp,hrest,hfail⟩⟩ := exists_run crc decode bs
    · rw [hbs,scan_image,hscan] at h
      cases h
    · refine ⟨log,p,back,hp,by rw [hbs,hrest],?_⟩
      rw [hbs,hrest,scan_image,scan_frame hp,hfail] at h
      rw [hfail,Except.error.inj h]
  · rintro ⟨log,p,rest,hp,rfl,hfail⟩
    rw [scan_image,scan_frame hp,hfail]
    rfl

theorem scan_ok {s : Scan α} (h : scan crc decode bs = .ok s) :
    ∃ (log : List (Entry decode)) (rest : Bytes),bs = image crc log++rest ∧ s.consumed = (image crc log).length ∧
      StopsAt crc decode rest s.stop := by
  obtain ⟨log,rest,hbs,⟨stop,hstop,hscan⟩ | ⟨p,back,e,hp,hrest,hfail⟩⟩ := exists_run crc decode bs
  · rw [hbs,scan_image,hscan] at h
    obtain rfl := Except.ok.inj h
    exact ⟨log,rest,hbs,rfl,hstop⟩
  · rw [hbs,hrest,scan_image,scan_frame hp,hfail] at h
    cases h

/-- Behind accepted records the reader stops at a whole record whose content is not accepted. -/
theorem scan_undecodable (log : List (Entry decode)) (hp : Framable p) (rest : Bytes) (hstop : decode p = .stop) :
    scan crc decode (image crc log++(frame crc p++rest)) = .ok ⟨log.map Entry.value,(image crc log).length,.undecodable⟩ := by
  rw [scan_image,scan_frame hp,hstop]
  simp [resume,Except.map,Scan.behind]

end

end FramedLog
