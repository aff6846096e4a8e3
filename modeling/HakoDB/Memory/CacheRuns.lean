import HakoDB.Memory.PageCache

/-! The page cache over whole runs of hits and puts. The queue, the positions and the blocks agree as long as no put drops
a part of the queue, which leaves the positions of the rest behind, or brings a key that is already cached. -/
namespace HakoDB
open ByteCodec HashMap

inductive CacheCall
  | get (key : BlockKey)
  | put (key : BlockKey) (data : Bytes)

/-- A cache with the moments at which keys were used last. -/
structure CacheWorld where
  cache : PageCache
  now : ℕ
  used : BlockKey → ℕ

namespace CacheWorld

def start (maxBytes : ℕ) : CacheWorld := ⟨.new maxBytes,0,fun _ => 0⟩

/-- A call that used the key. -/
def touch (w : CacheWorld) (key : BlockKey) (cache : PageCache) : CacheWorld :=
  ⟨cache,w.now+1,Function.update w.used key w.now⟩

/-- A miss and a block that is too large are no use of the key. -/
def step (w : CacheWorld) : CacheCall → CacheWorld
  | .get key => if (w.cache.get key).1.isSome then w.touch key (w.cache.get key).2 else w
  | .put key data => if w.cache.maxBytes < data.length then w else w.touch key (w.cache.put key data)

end CacheWorld

namespace PageCache

/-- The queue has every cached key once, the positions are those of the queue, and the counter is the sum of the blocks. -/
structure Sound (c : PageCache) : Prop where
  nodup : c.order.Nodup
  cached : ∀ k,k ∈ c.order ↔ (c.blocks.lookup k).isSome
  positions : ∀ k,c.positions.lookup k = c.order.idxOf? k
  bytes : c.currentBytes = tableSum List.length c.blocks
  within : c.currentBytes ≤ c.maxBytes

/-- Every key that makes room was used before all the others that are cached then. -/
def EvictsOldest (used : BlockKey → ℕ) (size : ℕ) : List BlockKey → PageCache → Prop
  | [],_ => True
  | victim::order,c => c.maxBytes < c.currentBytes+size →
      (∀ k,(c.blocks.lookup k).isSome → k ≠ victim → used victim < used k) ∧ EvictsOldest used size order (c.dropBlock victim)

/-- A put finds room for a key that is not cached, or not even room beside the block that was used last. -/
def Accepts (c : PageCache) : CacheCall → Prop
  | .get _ => True
  | .put key data => c.maxBytes < data.length ∨ c.currentBytes+data.length ≤ c.maxBytes ∧ c.blocks.lookup key = none ∨
      ∀ front last,c.order = front++[last] → c.maxBytes < ((c.blocks.lookup last).map List.length).getD 0+data.length

theorem idxOf?_append (xs ys : List BlockKey) (k : BlockKey) :
    (xs++ys).idxOf? k = (xs.idxOf? k).or ((ys.idxOf? k).map (·+xs.length)) := List.findIdx?_append

theorem lastValue_zipIdx {l : List BlockKey} (hnd : l.Nodup) (n : ℕ) (k : BlockKey) :
    lastValue k (l.zipIdx n) = (l.idxOf? k).map (·+n) := by
  induction l generalizing n with
  | nil => rfl
  | cons a l ih =>
    obtain ⟨ha,hl⟩ := List.nodup_cons.mp hnd
    rw [List.zipIdx_cons,lastValue,ih hl,List.idxOf?_cons]
    by_cases hk : k = a
    · subst hk
      simp [List.idxOf?_eq_none_iff.mpr ha]
    · have hne : (a == k) = false := by simp [Ne.symm hk]
      simp only [hne,hk,if_false,Option.or_none,Option.map_map,Bool.false_eq_true]
      congr 1
      funext i
      simp only [Function.comp_apply]
      omega

variable {c : PageCache} {key : BlockKey} {data : Bytes} {used : BlockKey → ℕ} {size : ℕ}

theorem Sound.new (maxBytes : ℕ) : (PageCache.new maxBytes).Sound := by
  constructor <;> simp [PageCache.new]

/-- The places behind a key that is taken out, beside the old ones of the keys in front of it. -/
theorem lookup_renumber {front rest : List BlockKey} (hnd : (front++key::rest).Nodup) {positions : HMap BlockKey ℕ}
    (hpositions : ∀ k,positions.lookup k = (front++key::rest).idxOf? k) {k : BlockKey} (hk : k ≠ key) :
    (renumber (front++rest) front.length positions).lookup k = (front++rest).idxOf? k := by
  have hdrop : (front++rest).zipIdx.drop front.length = rest.zipIdx front.length := by
    rw [List.zipIdx_append,List.drop_left' List.length_zipIdx,Nat.zero_add]
  have hrest : rest.Nodup := (List.nodup_cons.mp (List.nodup_append.mp hnd).2.1).2
  rw [renumber,lookup_insertAll,hdrop,lastValue_zipIdx hrest,hpositions,idxOf?_append,idxOf?_append]
  cases hin : rest.idxOf? k with
  | none =>
    have hcons : (key::rest).idxOf? k = none := by
      rw [List.idxOf?_cons,hin]
      simp [Ne.symm hk]
    rw [hcons]
    rfl
  | some i =>
    have hmem : k ∈ rest := List.isSome_idxOf?.mp (by rw [hin]; rfl)
    have hfront : front.idxOf? k = none := List.idxOf?_eq_none_iff.mpr fun hf =>
      (List.nodup_append.mp hnd).2.2 k hf k (List.mem_cons_of_mem key hmem) rfl
    rw [hfront]
    rfl

/-- A hit moves its key to the back and gives the keys behind it their new places. -/
theorem Sound.bump (h : c.Sound) (hkey : key ∈ c.order) :
    ∃ front,front.Sublist c.order ∧ (c.bump key).order = front++[key] ∧ (c.bump key).Sound := by
  obtain ⟨front,rest,horder⟩ := List.append_of_mem hkey
  have hnd := h.nodup
  rw [horder] at hnd
  have hpos : c.positions.lookup key = some front.length := by
    rw [h.positions,horder,idxOf?_append,List.idxOf?_cons,List.idxOf?_eq_none_iff.mpr fun hmem =>
      (List.nodup_append.mp hnd).2.2 key hmem key List.mem_cons_self rfl]
    simp
  unfold PageCache.bump
  simp only [hpos]
  split
  · have herase : c.order.eraseIdx front.length = front++rest := by
      rw [horder,List.eraseIdx_append_of_length_le le_rfl,Nat.sub_self,List.eraseIdx_cons_zero]
    have hmoved : (front++rest++[key]).Perm c.order := by
      rw [horder]
      exact (List.perm_append_singleton key _).trans List.perm_middle.symm
    have hnd' := hmoved.nodup_iff.mpr h.nodup
    rw [herase]
    refine ⟨front++rest,?_,rfl,hnd',fun k => hmoved.mem_iff.trans (h.cached k),fun k => ?_,h.bytes,h.within⟩
    · rw [horder]
      exact (List.Sublist.refl front).append (List.sublist_cons_self key rest)
    · dsimp only
      rw [lookup_insert_ite,idxOf?_append]
      split
      · rename_i hk
        rw [hk,List.idxOf?_eq_none_iff.mpr fun hmem => (List.nodup_append.mp hnd').2.2 key hmem key (by simp) rfl]
        simp [List.idxOf?_cons]
      · rename_i hk
        rw [lookup_renumber hnd (fun k => horder ▸ h.positions k) hk,List.idxOf?_cons]
        simp [Ne.symm hk]
  · have hlength := congrArg List.length horder
    rw [List.length_append,List.length_cons] at hlength
    obtain rfl := List.eq_nil_of_length_eq_zero (by omega : rest.length = 0)
    exact ⟨front,horder ▸ List.sublist_append_left front _,horder,h⟩

/-- A block is put behind the others. -/
def push (c : PageCache) (key : BlockKey) (data : Bytes) : PageCache :=
  {c with
    currentBytes := c.currentBytes+data.length
    order := c.order++[key]
    positions := c.positions.insert key c.order.length
    blocks := c.blocks.insert key data}

theorem Sound.push (h : c.Sound) (hroom : c.currentBytes+data.length ≤ c.maxBytes) (hnew : c.blocks.lookup key = none) :
    (c.push key data).Sound := by
  have hnot : key ∉ c.order := by
    rw [h.cached,hnew]
    exact Bool.false_ne_true
  have hsum : tableSum List.length (c.blocks.insert key data)+weight List.length (c.blocks.lookup key) =
      tableSum List.length c.blocks+weight List.length ((c.blocks.insert key data).lookup key) :=
    tableSum_update List.length fun k hk => by rw [lookup_insert_ite,if_neg hk]
  rw [hnew,weight_none,lookup_insert_ite,if_pos rfl,weight_some] at hsum
  refine ⟨?_,fun k => ?_,fun k => ?_,?_,hroom⟩
  · exact List.nodup_append.mpr ⟨h.nodup,List.nodup_singleton key,fun a ha b hb hab =>
      hnot (List.mem_singleton.mp hb ▸ hab ▸ ha)⟩
  · simp only [PageCache.push,lookup_insert_ite,List.mem_append,List.mem_singleton,h.cached]
    split <;> simp_all
  · simp only [PageCache.push,lookup_insert_ite,idxOf?_append,h.positions,List.idxOf?_cons]
    split
    · rename_i hk
      rw [hk,List.idxOf?_eq_none_iff.mpr hnot]
      simp
    · rename_i hk
      simp [Ne.symm hk]
  · rw [PageCache.push,h.bytes]
    exact hsum.symm

/-- The keys that are still queued are the cached ones; their places do not matter any more. -/
structure Queued (c : PageCache) (order : List BlockKey) : Prop where
  nodup : order.Nodup
  cached : ∀ k,k ∈ order ↔ (c.blocks.lookup k).isSome
  positions : ∀ k,k ∉ order → c.positions.lookup k = none
  bytes : c.currentBytes = tableSum List.length c.blocks

theorem Sound.queued (h : c.Sound) : c.Queued c.order :=
  ⟨h.nodup,h.cached,fun k hk => (h.positions k).trans (List.idxOf?_eq_none_iff.mpr hk),h.bytes⟩

theorem Queued.dropBlock {victim : BlockKey} {order : List BlockKey} (h : c.Queued (victim::order)) :
    (c.dropBlock victim).Queued order := by
  obtain ⟨hvictim,horder⟩ := List.nodup_cons.mp h.nodup
  have hsum : tableSum List.length (c.blocks.erase victim)+weight List.length (c.blocks.lookup victim) =
      tableSum List.length c.blocks+weight List.length ((c.blocks.erase victim).lookup victim) :=
    tableSum_update List.length fun k hk => by rw [lookup_erase_ite,if_neg hk]
  rw [lookup_erase_ite,if_pos rfl,weight_none] at hsum
  refine ⟨horder,fun k => ?_,fun k hk => ?_,?_⟩
  · have hcached := h.cached k
    simp only [PageCache.dropBlock,lookup_erase_ite]
    split <;> simp_all
  · simp only [PageCache.dropBlock,lookup_erase_ite]
    split
    · rfl
    · rename_i hne
      exact h.positions k (by simp [hne,hk])
  · change c.currentBytes-weight List.length (c.blocks.lookup victim) = tableSum List.length (c.blocks.erase victim)
    rw [h.bytes]
    omega

theorem Queued.evictsOldest {order : List BlockKey} (h : c.Queued order) (hused : order.Pairwise (used · < used ·)) :
    EvictsOldest used size order c := by
  induction order generalizing c with
  | nil => trivial
  | cons victim order ih =>
    obtain ⟨hvictim,horder⟩ := List.pairwise_cons.mp hused
    refine fun _ => ⟨fun k hk hne => hvictim k ?_,ih h.dropBlock horder⟩
    exact (List.mem_cons.mp ((h.cached k).mpr hk)).resolve_left hne

/-- A block that has no room beside the last one of the queue drops them all. -/
theorem Queued.evict_all {order : List BlockKey} (h : c.Queued order) (hlarge : ∀ front last,order = front++[last] →
    c.maxBytes < ((c.blocks.lookup last).map List.length).getD 0+size) :
    (evict size order c).Queued [] ∧ (evict size order c).order = [] ∧ (evict size order c).maxBytes = c.maxBytes := by
  induction order generalizing c with
  | nil => exact ⟨⟨h.nodup,h.cached,h.positions,h.bytes⟩,rfl,rfl⟩
  | cons victim order ih =>
    obtain ⟨front,last,hlast⟩ := (List.eq_nil_or_concat (victim::order)).resolve_left (List.cons_ne_nil _ _)
    rw [List.concat_eq_append] at hlast
    have hfull : c.maxBytes < c.currentBytes+size := by
      have hle := weight_le_tableSum List.length c.blocks last
      have hsize := hlarge front last hlast
      rw [h.bytes]
      exact hsize.trans_le (Nat.add_le_add_right hle size)
    rw [evict,if_pos hfull]
    refine ih h.dropBlock fun front last horder => ?_
    have hne : last ≠ victim := by
      rintro rfl
      exact (List.nodup_cons.mp h.nodup).1 (horder ▸ List.mem_append_right front (List.mem_singleton_self last))
    have hsize := hlarge (victim::front) last (by rw [horder,List.cons_append])
    simpa [PageCache.dropBlock,hne] using hsize

theorem Sound.put (h : c.Sound) (hfit : ¬c.maxBytes < data.length) (hok : c.Accepts (.put key data)) :
    ∃ front,front.Sublist c.order ∧ (c.put key data).order = front++[key] ∧ (c.put key data).Sound := by
  have hput : c.put key data = (evict data.length c.order c).push key data := if_neg hfit
  rw [hput]
  rcases hok with hlarge | ⟨hroom,hnew⟩ | hall
  · exact absurd hlarge hfit
  · have hsame : evict data.length c.order c = c := by
      cases horder : c.order with
      | nil => rw [evict,← horder]
      | cons victim order => rw [evict,if_neg (Nat.not_lt.mpr hroom),← horder]
    rw [hsame]
    exact ⟨c.order,.refl _,rfl,h.push hroom hnew⟩
  · obtain ⟨hqueued,hempty,hmax⟩ := h.queued.evict_all hall
    have hnone : ∀ k,(evict data.length c.order c).blocks.lookup k = none := fun k => by
      have hcached := hqueued.cached k
      simpa using hcached
    have hzero : (evict data.length c.order c).currentBytes = 0 := by
      rw [hqueued.bytes,← tableSum_empty (K := BlockKey) List.length]
      exact tableSum_congr fun k => by simp [hnone]
    have hsound : (evict data.length c.order c).Sound :=
      ⟨hempty ▸ .nil,fun k => hempty ▸ hqueued.cached k,fun k => hempty ▸ hqueued.positions k (by simp),hqueued.bytes,
        hzero ▸ Nat.zero_le _⟩
    refine ⟨[],List.nil_sublist _,by rw [PageCache.push,hempty],hsound.push ?_ (hnone key)⟩
    rw [hzero,hmax]
    omega

theorem Sound.get (h : c.Sound) (hkey : (c.blocks.lookup key).isSome) :
    ∃ front,front.Sublist c.order ∧ (c.get key).2.order = front++[key] ∧ (c.get key).2.Sound := by
  obtain ⟨data,hdata⟩ := Option.isSome_iff_exists.mp hkey
  have hget : (c.get key).2 = c.bump key := by rw [PageCache.get,hdata]
  rw [hget]
  exact h.bump ((h.cached key).mpr hkey)

end PageCache

namespace CacheWorld

/-- The queue stands in the order of the last uses. -/
structure Ok (w : CacheWorld) : Prop where
  sound : w.cache.Sound
  recent : w.cache.order.Pairwise (w.used · < w.used ·)
  past : ∀ k ∈ w.cache.order,w.used k < w.now

variable {w : CacheWorld}

theorem Ok.touch (h : w.Ok) {key : BlockKey} {cache : PageCache} (hcache : ∃ front,front.Sublist w.cache.order ∧
    cache.order = front++[key] ∧ cache.Sound) : (w.touch key cache).Ok := by
  obtain ⟨front,hsub,horder,hsound⟩ := hcache
  have hnd := hsound.nodup
  rw [horder] at hnd
  have hused : ∀ k ∈ front,(w.touch key cache).used k = w.used k ∧ w.used k < w.now := by
    intro k hk
    have hne : k ≠ key := fun heq => (List.nodup_append.mp hnd).2.2 k hk key (List.mem_singleton_self key) heq
    exact ⟨Function.update_of_ne hne _ _,h.past k (hsub.subset hk)⟩
  have hlast : (w.touch key cache).used key = w.now := Function.update_self ..
  refine ⟨hsound,?_,fun k hk => ?_⟩
  · change cache.order.Pairwise _
    rw [horder,List.pairwise_append]
    refine ⟨(h.recent.sublist hsub).imp_of_mem fun ha hb hlt => ?_,List.pairwise_singleton _ _,fun a ha b hb => ?_⟩
    · rw [(hused _ ha).1,(hused _ hb).1]
      exact hlt
    · rw [List.mem_singleton.mp hb,hlast,(hused a ha).1]
      exact (hused a ha).2
  · change k ∈ cache.order at hk
    change (w.touch key cache).used k < w.now+1
    rw [horder] at hk
    rcases List.mem_append.mp hk with hk | hk
    · rw [(hused k hk).1]
      exact (hused k hk).2.trans (Nat.lt_succ_self _)
    · rw [List.mem_singleton.mp hk,hlast]
      exact Nat.lt_succ_self _

theorem Ok.step (h : w.Ok) {call : CacheCall} (hok : w.cache.Accepts call) : (w.step call).Ok := by
  cases call with
  | get key =>
    rw [CacheWorld.step,PageCache.get_fst]
    split
    · rename_i hkey
      exact h.touch (h.sound.get hkey)
    · exact h
  | put key data =>
    rw [CacheWorld.step]
    split
    · exact h
    · rename_i hfit
      exact h.touch (h.sound.put hfit hok)

def run (w : CacheWorld) (calls : List CacheCall) : CacheWorld := calls.foldl step w

def EvictsLru (w : CacheWorld) : CacheCall → Prop
  | .get _ => True
  | .put _ data => data.length ≤ w.cache.maxBytes → w.cache.EvictsOldest w.used data.length w.cache.order

/-- Every call of the run finds a put that it can take. -/
def AllowedRun : CacheWorld → List CacheCall → Prop
  | _,[] => True
  | w,call::calls => w.cache.Accepts call ∧ AllowedRun (w.step call) calls

/-- The cache is sound in every state of the run, and every put makes room by the least recently used blocks. -/
def SoundRun : CacheWorld → List CacheCall → Prop
  | w,[] => w.cache.Sound
  | w,call::calls => w.cache.Sound ∧ w.EvictsLru call ∧ SoundRun (w.step call) calls

theorem Ok.run (h : w.Ok) {calls : List CacheCall} (hok : AllowedRun w calls) : SoundRun w calls := by
  induction calls generalizing w with
  | nil => exact h.sound
  | cons call calls ih =>
    refine ⟨h.sound,?_,ih (h.step hok.1) hok.2⟩
    cases call with
    | get key => trivial
    | put key data => exact fun _ => h.sound.queued.evictsOldest h.recent

/-- Whatever is read and put, the three structures agree and evictions take the least recently used blocks. -/
theorem soundRun_of_allowed (maxBytes : ℕ) {calls : List CacheCall} (hok : AllowedRun (start maxBytes) calls) :
    SoundRun (start maxBytes) calls :=
  Ok.run ⟨.new maxBytes,.nil,fun _ hk => absurd hk List.not_mem_nil⟩ hok

def block (offset : UInt64) : BlockKey := ⟨0,offset⟩

theorem soundRun_replaced : SoundRun (start 3) [.put (block 0) [1],.put (block 1) [2],.get (block 0),.put (block 2) [1,2,3]] := by
  refine soundRun_of_allowed 3 ⟨.inr (.inl ⟨by decide,rfl⟩),.inr (.inl ⟨by decide,rfl⟩),trivial,
    .inr (.inr fun front last horder => ?_),trivial⟩
  have hlast : last = block 0 := by
    have horder' : [block 1]++[block 0] = front++[last] := horder
    simpa using (List.append_inj' horder' rfl).2.symm
  subst hlast
  decide

/-- The third block drops the first; the place of the second stays behind, so a hit does not move it, and it is dropped
though the third was used before. -/
theorem evicts_recent_block : ¬((start 2).run [.put (block 0) [1],.put (block 1) [2],.put (block 2) [3]]).cache.Sound ∧
    (((start 2).run [.put (block 0) [1],.put (block 1) [2],.put (block 2) [3],.get (block 1),
      .put (block 3) [4]]).cache.blocks.lookup (block 1) = none ∧
    (((start 2).run [.put (block 0) [1],.put (block 1) [2],.put (block 2) [3],.get (block 1),
      .put (block 3) [4]]).cache.blocks.lookup (block 2) = some [3])) := by
  refine ⟨fun h => ?_,by decide,by decide⟩
  have hpos := h.positions (block 1)
  revert hpos
  decide

end CacheWorld

end HakoDB
