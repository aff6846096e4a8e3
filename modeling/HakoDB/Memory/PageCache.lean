import HakoDB.Basic
import HakoDB.Lib.TableSum

/-! The page cache of a shard: decoded records by segment and offset, dropped from the front of a queue when room is
needed. The positions kept beside the queue go stale when the front is dropped; they decide who goes, never what is read. -/
namespace HakoDB
open ByteCodec HashMap

structure BlockKey where
  segmentId : UInt64
  offset : UInt64
  deriving DecidableEq

structure PageCache where
  maxBytes : ℕ
  currentBytes : ℕ
  order : List BlockKey
  positions : HMap BlockKey ℕ
  blocks : HMap BlockKey Bytes

namespace PageCache

def new (maxBytes : ℕ) : PageCache := ⟨maxBytes,0,[],∅,∅⟩

/-- The keys from an index on are given their places in the queue. -/
def renumber (order : List BlockKey) (pos : ℕ) (positions : HMap BlockKey ℕ) : HMap BlockKey ℕ :=
  insertAll positions (order.zipIdx.drop pos)

/-- A key that was hit goes to the back. -/
def bump (c : PageCache) (key : BlockKey) : PageCache :=
  match c.positions.lookup key with
  | none => c
  | some pos =>
    if pos+1 ≠ c.order.length then
      let order := c.order.eraseIdx pos
      {c with
        order := order++[key]
        positions := (renumber order pos c.positions).insert key order.length}
    else c

def get (c : PageCache) (key : BlockKey) : Option Bytes × PageCache :=
  match c.blocks.lookup key with
  | none => (none,c)
  | some data => (some data,c.bump key)

def dropBlock (c : PageCache) (victim : BlockKey) : PageCache :=
  {c with
    positions := c.positions.erase victim
    blocks := c.blocks.erase victim
    currentBytes := c.currentBytes-((c.blocks.lookup victim).map List.length).getD 0}

/-- Keys are popped from the front until the block fits or the queue is empty. -/
def evict (size : ℕ) : List BlockKey → PageCache → PageCache
  | [],c => {c with order := []}
  | victim::order,c =>
    if c.maxBytes < c.currentBytes+size then evict size order (c.dropBlock victim) else {c with order := victim::order}

def put (c : PageCache) (key : BlockKey) (data : Bytes) : PageCache :=
  if c.maxBytes < data.length then c
  else
    let c := evict data.length c.order c
    {c with
      currentBytes := c.currentBytes+data.length
      order := c.order++[key]
      positions := c.positions.insert key c.order.length
      blocks := c.blocks.insert key data}

theorem bump_blocks (c : PageCache) (key : BlockKey) : (c.bump key).blocks = c.blocks := by
  unfold bump
  split
  · rfl
  · split <;> rfl

theorem get_fst (c : PageCache) (key : BlockKey) : (c.get key).1 = c.blocks.lookup key := by
  unfold get
  cases c.blocks.lookup key <;> rfl

theorem get_blocks (c : PageCache) (key : BlockKey) : (c.get key).2.blocks = c.blocks := by
  unfold get
  cases c.blocks.lookup key with
  | none => rfl
  | some data => exact c.bump_blocks key

theorem evict_lookup {size : ℕ} {order : List BlockKey} {c : PageCache} {k : BlockKey} {data : Bytes}
    (h : (evict size order c).blocks.lookup k = some data) : c.blocks.lookup k = some data := by
  induction order generalizing c with
  | nil => exact h
  | cons victim order ih =>
    rw [evict] at h
    split at h
    · have hdropped := ih h
      rw [dropBlock,lookup_erase_ite] at hdropped
      split at hdropped
      · cases hdropped
      · exact hdropped
    · exact h

/-- Whatever the queue looks like, a block is the one just put or one that was there. -/
theorem put_lookup {c : PageCache} {key k : BlockKey} {data block : Bytes}
    (h : (c.put key data).blocks.lookup k = some block) : k = key ∧ block = data ∨ c.blocks.lookup k = some block := by
  unfold put at h
  split at h
  · exact .inr h
  · change ((evict data.length c.order c).blocks.insert key data).lookup k = some block at h
    rw [lookup_insert_ite] at h
    split at h
    · rename_i hk
      exact .inl ⟨hk,(Option.some.inj h).symm⟩
    · exact .inr (evict_lookup h)

end PageCache

end HakoDB
