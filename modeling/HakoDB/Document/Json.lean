import HakoDB.Lib.ReadAll
import HakoDB.Lib.ByteLanes
import HakoDB.Document.Codec
import HakoDB.Document.Order

/-! Documents as JSON: the escapes of a string, eight bytes tested at a time, and the writer that goes over a decoded
document. -/
namespace HakoDB
open ByteCodec ByteLanes ReadAll Varint

def hexByte (n : ℕ) : UInt8 := UInt8.ofNat (if n < 10 then 0x30+n else 0x57+n)

/-- Quotes, backslashes and control characters are escaped, all other bytes stand as they are. -/
def escapeByte (b : UInt8) : Bytes :=
  if b = 0x22 ∨ b = 0x5C then [0x5C,b]
  else if b = 0x08 then [0x5C,0x62]
  else if b = 0x09 then [0x5C,0x74]
  else if b = 0x0A then [0x5C,0x6E]
  else if b = 0x0C then [0x5C,0x66]
  else if b = 0x0D then [0x5C,0x72]
  else if b.toNat < 0x20 then [0x5C,0x75,0x30,0x30,hexByte (b.toNat/16),hexByte (b.toNat%16)]
  else [b]

/-- What follows the backslash of an escape: zero for bytes that stand as they are, `u` for those written as numbers. -/
def escapeTable (b : UInt8) : UInt8 :=
  if b = 0x22 ∨ b = 0x5C then b
  else if b = 0x08 then 0x62
  else if b = 0x09 then 0x74
  else if b = 0x0A then 0x6E
  else if b = 0x0C then 0x66
  else if b = 0x0D then 0x72
  else if b < 0x20 then 0x75
  else 0

/-- Eight bytes tested at once. -/
def needsEscape (w : UInt64) : Bool :=
  (lanesBelow 0x20 w ||| (lanesBelow 1 (w ^^^ ones*0x22) ||| lanesBelow 1 (w ^^^ ones*0x5C))) != 0

def pushEscape (b : UInt8) : Bytes :=
  0x5C::(if escapeTable b = 0x75 then [0x75,0x30,0x30,hexByte (b >>> 4).toNat,hexByte (b &&& 0xF).toNat] else [escapeTable b])

/-- The bytes passed over since the last escape stand in `run` and are copied at once; eight bytes are passed over
together where none of them is escaped. -/
def writeRuns : ℕ → Bytes → Bytes → Bytes
  | 0,run,_ => run
  | _+1,run,[] => run
  | fuel+1,run,b::rest =>
    if 8 ≤ (b::rest).length ∧ !needsEscape (word ((b::rest).take 8)) then
      writeRuns fuel (run++(b::rest).take 8) ((b::rest).drop 8)
    else if escapeTable b = 0 then writeRuns fuel (run++[b]) rest
    else run++pushEscape b++writeRuns fuel [] rest

def writeJsonRaw (s : String) : Bytes := writeRuns ((asBytes s).length+1) [] (asBytes s)

theorem escapeByte_eq (b : UInt8) : escapeByte b = if escapeTable b = 0 then [b] else pushEscape b := by
  have hall : ∀ n < 256,escapeByte (UInt8.ofNat n) =
      if escapeTable (UInt8.ofNat n) = 0 then [UInt8.ofNat n] else pushEscape (UInt8.ofNat n) := by decide +kernel
  simpa using hall b.toNat b.toNat_lt

theorem xor_ne_zero {a b : ℕ} (h : 1 ≤ a ^^^ b) : a ≠ b := by
  rintro rfl
  rw [Nat.xor_self] at h
  omega

/-- Eight bytes that pass the test all stand as they are. -/
theorem escapeByte_of_needsEscape {bs : Bytes} (hlen : bs.length = 8) (h : needsEscape (word bs) = false) :
    ∀ b ∈ bs,escapeByte b = [b] := by
  have hzero : lanesBelow 0x20 (word bs) = 0 ∧ lanesBelow 1 (word bs ^^^ ones*0x22) = 0 ∧
      lanesBelow 1 (word bs ^^^ ones*0x5C) = 0 := by
    simpa [needsEscape,UInt64.or_eq_zero_iff] using h
  obtain ⟨hcontrol,hquote,hslash⟩ := hzero
  intro b hb
  obtain ⟨i,hi,rfl⟩ := List.getElem_of_mem hb
  have hi8 : i < 8 := by omega
  have hcontrol := le_lane_of_lanesBelow hi8 (by decide) hcontrol
  have hquote := le_lane_of_lanesBelow hi8 (by decide) hquote
  have hslash := le_lane_of_lanesBelow hi8 (by decide) hslash
  rw [lane_xor hi8 (by decide),lane_word hlen hi] at hquote hslash
  rw [lane_word hlen hi] at hcontrol
  have hq : bs[i] ≠ 0x22 := fun he => xor_ne_zero hquote (by rw [he]; rfl)
  have hs : bs[i] ≠ 0x5C := fun he => xor_ne_zero hslash (by rw [he]; rfl)
  have hnot : ¬bs[i].toNat < 0x20 := by simpa using hcontrol
  have hne : ∀ c : UInt8,c.toNat < 0x20 → bs[i] ≠ c := fun c hc he => hnot (he ▸ hc)
  simp [escapeByte,hq,hs,hnot,hne 0x08 (by decide),hne 0x09 (by decide),hne 0x0A (by decide),hne 0x0C (by decide),
    hne 0x0D (by decide)]

theorem writeRuns_eq {fuel : ℕ} {rest : Bytes} (h : rest.length < fuel) (run : Bytes) :
    writeRuns fuel run rest = run++rest.flatMap escapeByte := by
  induction fuel generalizing run rest with
  | zero => cases h
  | succ fuel ih =>
    cases rest with
    | nil => rw [writeRuns,List.flatMap_nil,List.append_nil]
    | cons b rest =>
      rw [List.length_cons] at h
      rw [writeRuns]
      split_ifs with hskip hclean
      · obtain ⟨hlen,hskip⟩ := hskip
        have htake : ((b::rest).take 8).length = 8 := by
          rw [List.length_take]
          omega
        have hclean := escapeByte_of_needsEscape htake (by simpa using hskip)
        have hcopy : ((b::rest).take 8).flatMap escapeByte = (b::rest).take 8 := by
          rw [List.flatMap_congr hclean,List.flatMap_singleton']
        rw [ih (by simp; omega),List.append_assoc]
        nth_rewrite 1 [← hcopy]
        rw [← List.flatMap_append,List.take_append_drop]
      · rw [ih (by omega),List.flatMap_cons,escapeByte_eq,if_pos hclean,List.append_assoc]
      · rw [ih (by omega),List.flatMap_cons,escapeByte_eq,if_neg hclean,List.nil_append,List.append_assoc]

theorem writeJsonRaw_eq (s : String) : writeJsonRaw s = (asBytes s).flatMap escapeByte := by
  rw [writeJsonRaw,writeRuns_eq (Nat.lt_succ_self _),List.nil_append]

/-- The writer's three locals: the bytes up to `start` are written, those up to `i` are passed over. -/
structure RunCopy where
  out : Bytes
  start : ℕ
  i : ℕ

namespace RunCopy
variable {bytes : Bytes} {c : RunCopy}

/-- What is written once the clean run that ends before `stop` is copied. -/
def copied (bytes : Bytes) (c : RunCopy) (stop : ℕ) : Bytes :=
  if c.start < stop then c.out++(bytes.drop c.start).take (stop-c.start) else c.out

def turn (bytes : Bytes) (c : RunCopy) : RunCopy :=
  if c.i+8 ≤ bytes.length ∧ !needsEscape (word ((bytes.drop c.i).take 8)) then {c with i := c.i+8}
  else
    let b := bytes.getD c.i 0
    if escapeTable b = 0 then {c with i := c.i+1}
    else ⟨c.copied bytes c.i++pushEscape b,c.i+1,c.i+1⟩

def loop (bytes : Bytes) : ℕ → RunCopy → RunCopy
  | 0,c => c
  | fuel+1,c => if c.i < bytes.length then loop bytes fuel (c.turn bytes) else c

/-- Between two turns the clean run from `start` to `i` is all that is still to be copied. -/
def WrittenTo (out bytes : Bytes) (c : RunCopy) : Prop :=
  c.start ≤ c.i ∧ c.i ≤ bytes.length ∧ c.copied bytes c.i = out++(bytes.take c.i).flatMap escapeByte

theorem copied_advance (hstart : c.start ≤ c.i) (n : ℕ) :
    copied bytes {c with i := c.i+n} (c.i+n) = c.copied bytes c.i++(bytes.drop c.i).take n := by
  have hsplit : c.i+n-c.start = (c.i-c.start)+n := by omega
  have hskip : c.start+(c.i-c.start) = c.i := by omega
  rcases Nat.lt_or_ge c.start c.i with hlt | hge
  · rw [copied,copied,if_pos hlt,if_pos (by simp; omega)]
    dsimp only
    rw [hsplit,List.take_add,List.drop_drop,hskip,List.append_assoc]
  · have hempty : c.i-c.start = 0 := by omega
    have hnone : c.copied bytes c.i = c.out := if_neg (Nat.not_lt.mpr hge)
    rw [hnone,copied]
    dsimp only
    rw [hsplit,hempty,Nat.zero_add,show c.start = c.i by omega]
    split_ifs with hpos
    · rfl
    · rw [show n = 0 by omega,List.take_zero,List.append_nil]

theorem turn_cases (hi : c.i < bytes.length) :
    (∃ n,0 < n ∧ c.i+n ≤ bytes.length ∧ (∀ b ∈ (bytes.drop c.i).take n,escapeByte b = [b]) ∧
      c.turn bytes = {c with i := c.i+n}) ∨
    c.turn bytes = ⟨c.copied bytes c.i++escapeByte bytes[c.i],c.i+1,c.i+1⟩ := by
  have hget : bytes.getD c.i 0 = bytes[c.i] := List.getD_eq_getElem _ _ hi
  rw [turn,hget]
  dsimp only
  split_ifs with hskip hclean
  · obtain ⟨hlen,hskip⟩ := hskip
    have htake : ((bytes.drop c.i).take 8).length = 8 := by
      rw [List.length_take,List.length_drop]
      omega
    exact .inl ⟨8,by decide,hlen,escapeByte_of_needsEscape htake (by simpa using hskip),rfl⟩
  · refine .inl ⟨1,Nat.one_pos,hi,?_,rfl⟩
    intro b hb
    rw [List.drop_eq_getElem_cons hi,List.take_succ_cons,List.take_zero,List.mem_singleton] at hb
    rw [hb,escapeByte_eq,if_pos hclean]
  · exact .inr (by rw [escapeByte_eq,if_neg hclean])

theorem WrittenTo.turn {out : Bytes} (h : WrittenTo out bytes c) (hi : c.i < bytes.length) :
    WrittenTo out bytes (c.turn bytes) ∧ c.i < (c.turn bytes).i := by
  obtain ⟨hstart,hlen,hout⟩ := h
  obtain ⟨n,hpos,hn,hclean,he⟩ | he := turn_cases hi
  · rw [he]
    have hcopy : ((bytes.drop c.i).take n).flatMap escapeByte = (bytes.drop c.i).take n := by
      rw [List.flatMap_congr hclean,List.flatMap_singleton']
    refine ⟨⟨by dsimp only; omega,hn,?_⟩,by dsimp only; omega⟩
    dsimp only
    rw [copied_advance hstart,hout,List.take_add,List.flatMap_append,hcopy,List.append_assoc]
  · rw [he]
    refine ⟨⟨Nat.le_refl _,hi,?_⟩,Nat.lt_succ_self _⟩
    rw [copied,if_neg (Nat.lt_irrefl _)]
    dsimp only
    rw [hout,List.take_succ_eq_append_getElem hi,List.flatMap_append,List.append_assoc]
    simp

theorem WrittenTo.loop {out : Bytes} {fuel : ℕ} (h : WrittenTo out bytes c) (hfuel : bytes.length ≤ c.i+fuel) :
    WrittenTo out bytes (loop bytes fuel c) ∧ (RunCopy.loop bytes fuel c).i = bytes.length := by
  induction fuel generalizing c with
  | zero => exact ⟨h,Nat.le_antisymm h.2.1 hfuel⟩
  | succ fuel ih =>
    rw [RunCopy.loop]
    split_ifs with hi
    · obtain ⟨hnext,hlt⟩ := h.turn hi
      exact ih hnext (by omega)
    · exact ⟨h,Nat.le_antisymm h.2.1 (Nat.le_of_not_lt hi)⟩

end RunCopy

/-- The writer as it goes over the bytes with two positions and appends to what is there. -/
def writeJsonRawTo (out : Bytes) (s : String) : Bytes :=
  let bytes := asBytes s
  let c := RunCopy.loop bytes bytes.length ⟨out,0,0⟩
  if c.start < bytes.length then c.out++bytes.drop c.start else c.out

/-- The two positions lose and repeat nothing. -/
theorem writeJsonRawTo_eq (out : Bytes) (s : String) : writeJsonRawTo out s = out++writeJsonRaw s := by
  have hinit : RunCopy.WrittenTo out (asBytes s) ⟨out,0,0⟩ := by
    refine ⟨Nat.le_refl _,Nat.zero_le _,?_⟩
    rw [RunCopy.copied,if_neg (Nat.lt_irrefl _),List.take_zero,List.flatMap_nil,List.append_nil]
  obtain ⟨⟨-,-,hout⟩,hi⟩ := hinit.loop (Nat.le_of_eq (Nat.zero_add _).symm)
  rw [hi,List.take_length,RunCopy.copied] at hout
  rw [writeJsonRaw_eq,← hout,writeJsonRawTo,List.take_of_length_le (by rw [List.length_drop])]

/-- The writer appends the escapes of the single bytes, and eight bytes it passes over together need none. -/
theorem writeJsonRawTo_spec (out : Bytes) (s : String) :
    writeJsonRawTo out s = out++(asBytes s).flatMap escapeByte ∧
    ∀ bs : Bytes,bs.length = 8 → needsEscape (word bs) = false → ∀ b ∈ bs,escapeByte b = [b] := by
  refine ⟨?_,fun bs hlen h => escapeByte_of_needsEscape hlen h⟩
  rw [writeJsonRawTo_eq,writeJsonRaw_eq]

def writeJsonStr (s : String) : Bytes := 0x22::writeJsonRaw s++[0x22]

def pushInt (n : ℤ) : Bytes := asBytes (toString n)

def commaSeparated (parts : List Bytes) : Bytes := (parts.intersperse [0x2C]).flatten

def jsonList (parts : List Bytes) : Bytes := 0x5B::commaSeparated parts++[0x5D]

def jsonObject (parts : List Bytes) : Bytes := 0x7B::commaSeparated parts++[0x7D]

def jsonField (key : String) (value : Bytes) : Bytes := writeJsonStr key++0x3A::value

/-- The keys of a nested map are sorted. -/
def byKeyBytes {α : Type} (key : α → Bytes) (a b : α) : Prop := compareBytes (key a) (key b) ≠ .gt

instance {α : Type} (key : α → Bytes) : DecidableRel (byKeyBytes key) := fun a b =>
  inferInstanceAs (Decidable (compareBytes (key a) (key b) ≠ .gt))

section writers
variable (jsonFloat : F64 → Bytes)

mutual
def writeJsonValue : Value → Bytes
  | .null | .serverTimestamp => asBytes "null"
  | .bool b => asBytes (if b then "true" else "false")
  | .int n | .timestamp n => pushInt n.toInt
  | .float f => jsonFloat f
  | .string s => writeJsonStr s
  | .binary bs => jsonList (bs.map fun b => pushInt b.toNat)
  | .reference collection docId =>
    asBytes "\x7b\"__ref__\":\""++writeJsonRaw collection++asBytes "/"++writeJsonRaw docId++asBytes "\"\x7d"
  | .blobLink offset len =>
    asBytes "\x7b\"__blob__\":\x7b\"len\":"++pushInt len.toNat++asBytes ",\"offset\":"++pushInt offset.toNat++asBytes "\x7d\x7d"
  | .map fields => jsonObject (((writeJsonFields fields).insertionSort (byKeyBytes Prod.fst)).map Prod.snd)
  | .array items => jsonList (writeJsonItems items)
/-- Each field behind the bytes of its key. -/
def writeJsonFields : List (String × Value) → List (Bytes × Bytes)
  | [] => []
  | (key,value)::fields => (asBytes key,jsonField key (writeJsonValue value))::writeJsonFields fields
def writeJsonItems : List Value → List Bytes
  | [] => []
  | value::items => writeJsonValue value::writeJsonItems items
end

/-- The time stands where its name sorts among the fields; a field of that name takes its place. -/
def withTime (time : Bytes) : Bool → List (String × Bytes) → List Bytes
  | written,[] => if written then [] else [time]
  | written,(key,part)::parts =>
    (if !written && "_time" < key then [time] else [])++part::withTime time (written || "_time" ≤ key) parts

def writeTime (time : Int64) : Bytes := jsonField "_time" (pushInt time.toInt)

def HakoDoc.toJsonBytes (doc : HakoDoc) : Bytes :=
  jsonObject (withTime (writeTime doc.time) false (doc.fields.map fun f => (f.1,jsonField f.1 (writeJsonValue jsonFloat f.2))))

/-- The entries of a map as they lie in its bytes: key, tag and content. -/
def viewEntries : ℕ → Bytes → Option (List (Bytes × UInt8 × Bytes) × Bytes)
  | 0,bs => some ([],bs)
  | n+1,bs => do
    let (l,bs) ← readByte bs
    let (key,bs) ← take? l.toNat bs
    let (tag,bs) ← readByte bs
    let (data,bs) ← skipValue tag bs
    let (entries,bs) ← viewEntries n bs
    return ((key,tag,data)::entries,bs)

def viewItems : ℕ → Bytes → Option (List (UInt8 × Bytes) × Bytes)
  | 0,bs => some ([],bs)
  | n+1,bs => do
    let (tag,bs) ← readByte bs
    let (data,bs) ← skipValue tag bs
    let (items,bs) ← viewItems n bs
    return ((tag,data)::items,bs)

/-- A field from its own bytes, behind its name. -/
def writeEntry (write : UInt8 → Bytes → Option Bytes) (e : Bytes × UInt8 × Bytes) : Option (String × Bytes) := do
  let key ← fromUtf8 e.1
  let part ← write e.2.1 e.2.2
  return (key,jsonField key part)

end writers

section agreement
variable {jsonFloat : F64 → Bytes}

theorem writeJsonFields_eq (fields : List (String × Value)) :
    writeJsonFields jsonFloat fields = fields.map fun f => (asBytes f.1,jsonField f.1 (writeJsonValue jsonFloat f.2)) := by
  induction fields with
  | nil => rfl
  | cons f fields ih => rw [writeJsonFields,ih,List.map_cons]

theorem writeJsonItems_eq (items : List Value) : writeJsonItems jsonFloat items = items.map (writeJsonValue jsonFloat) := by
  induction items with
  | nil => rfl
  | cons v items ih => rw [writeJsonItems,ih,List.map_cons]

/-- The fields are sorted before or after they are written. -/
theorem writeJsonValue_map (fields : List (String × Value)) : writeJsonValue jsonFloat (.map fields) = jsonObject
    ((fields.insertionSort (byKeyBytes fun f => asBytes f.1)).map fun f => jsonField f.1 (writeJsonValue jsonFloat f.2)) := by
  have hpieces := List.map_insertionSort (byKeyBytes fun f : String × Value => asBytes f.1) (byKeyBytes Prod.fst)
    (fun f => (asBytes f.1,jsonField f.1 (writeJsonValue jsonFloat f.2))) fields fun _ _ _ _ => Iff.rfl
  rw [writeJsonValue,writeJsonFields_eq,← hpieces,List.map_map]
  rfl

end agreement

end HakoDB
