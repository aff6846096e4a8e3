import HakoDB.Query.Scan

/-! The slices of the sorted keys that a page by id walks, up or down from an anchor. The downward slice is always
the page; the upward one adds positions, offsets and limits as machine numbers. -/
namespace HakoDB
namespace StorageEngine

/-- The key is walked by a page that goes up from the anchor. -/
def fromAnchor (start : Option String) (exclusive : Bool) (key : String) : Bool :=
  match start with
  | some a => if exclusive then a < key else a ≤ key
  | none => true

/-- The key is walked by a page that goes down from the anchor. -/
def downFromAnchor (start : Option String) (exclusive : Bool) (key : String) : Bool :=
  match start with
  | some a => if exclusive then key < a else key ≤ a
  | none => true

def takeLimit (limit : Option UInt64) (keys : List String) : List String :=
  match limit with
  | some l => keys.take l.toNat
  | none => keys

section pages
variable (s : StorageEngine) (start : Option String) (exclusive : Bool) (offset limit : Option UInt64)

def pageUp : List String := takeLimit limit ((s.sortedKeys.filter (fromAnchor start exclusive)).drop (offset.getD 0).toNat)

def pageDown : List String :=
  takeLimit limit ((s.sortedKeys.filter (downFromAnchor start exclusive)).reverse.drop (offset.getD 0).toNat)

/-- How many keys stand before the first one of a walk up. -/
def keysBefore : ℕ := (s.sortedKeys.filter fun key => !fromAnchor start exclusive key).length

/-- The position of the page's first key is a machine number, or the page is asked to be empty; and where keys are left
at that position, so is the position behind the page. -/
def PositionsFit : Prop :=
  (s.keysBefore start exclusive+(offset.getD 0).toNat < 2^64 ∨ limit = some 0) ∧
  (s.keysBefore start exclusive+(offset.getD 0).toNat < s.sortedKeys.length →
    ∀ l,limit = some l → s.keysBefore start exclusive+(offset.getD 0).toNat+l.toNat < 2^64)

/-- A pair of positions that can be sliced and gives the keys. -/
structure Delimits (range : ℕ × ℕ) (keys : List String) : Prop where
  ordered : range.1 ≤ range.2
  inside : range.2 ≤ s.sortedKeys.length
  slice : (s.sortedKeys.take range.2).drop range.1 = keys

end pages

section split
variable {α : Type} {xs : List α}
variable {p : α → Bool} {i : ℕ}

/-- A test that fails up to a position and holds from there on. -/
theorem filter_eq_drop (hbefore : ∀ a ∈ xs.take i,p a = false) (hafter : ∀ a ∈ xs.drop i,p a = true) :
    xs.filter p = xs.drop i := by
  conv_lhs => rw [← List.take_append_drop i xs]
  rw [List.filter_append,List.filter_eq_nil_iff.2 fun a ha => by simp [hbefore a ha],List.nil_append,
    List.filter_eq_self.2 hafter]

theorem filter_eq_take (hbefore : ∀ a ∈ xs.take i,p a = true) (hafter : ∀ a ∈ xs.drop i,p a = false) :
    xs.filter p = xs.take i := by
  conv_lhs => rw [← List.take_append_drop i xs]
  rw [List.filter_append,List.filter_eq_self.2 hbefore,List.filter_eq_nil_iff.2 fun a ha => by simp [hafter a ha],
    List.append_nil]

theorem around_of_getElem? [LinearOrder α] (hs : xs.Pairwise (· < ·)) {a : α} (h : xs[i]? = some a) :
    i < xs.length ∧ (∀ b ∈ xs.take i,b < a) ∧ xs.drop i = a::xs.drop (i+1) ∧ ∀ b ∈ xs.drop (i+1),a < b := by
  obtain ⟨hi,rfl⟩ := List.getElem?_eq_some_iff.1 h
  have hdrop : xs.drop i = xs[i]::xs.drop (i+1) := List.drop_eq_getElem_cons hi
  rw [← List.take_append_drop i xs,hdrop,List.pairwise_append,List.pairwise_cons] at hs
  exact ⟨hi,fun b hb => hs.2.2 b hb _ List.mem_cons_self,hdrop,hs.2.1.1⟩

end split

section positions
variable {s : StorageEngine}

theorem fromAnchor_behind {a key : String} (h : a < key) (exclusive : Bool) : fromAnchor (some a) exclusive key = true := by
  cases exclusive
  · exact decide_eq_true h.le
  · exact decide_eq_true h

theorem fromAnchor_before {a key : String} (h : key < a) (exclusive : Bool) : fromAnchor (some a) exclusive key = false := by
  cases exclusive
  · exact decide_eq_false h.not_ge
  · exact decide_eq_false h.not_gt

theorem fromAnchor_self (a : String) (exclusive : Bool) : fromAnchor (some a) exclusive a = !exclusive := by
  cases exclusive
  · exact decide_eq_true le_rfl
  · exact decide_eq_false (lt_irrefl a)

/-- Beside the anchor itself a key is walked up or down. -/
theorem downFromAnchor_eq {a key : String} (h : key ≠ a) (exclusive : Bool) :
    downFromAnchor (some a) exclusive key = !fromAnchor (some a) exclusive key := by
  rcases lt_or_gt_of_ne h with hlt | hgt
  · rw [fromAnchor_before hlt]
    cases exclusive
    · exact decide_eq_true hlt.le
    · exact decide_eq_true hlt
  · rw [fromAnchor_behind hgt]
    cases exclusive
    · exact decide_eq_false hgt.not_ge
    · exact decide_eq_false hgt.not_gt

theorem downFromAnchor_self (a : String) (exclusive : Bool) : downFromAnchor (some a) exclusive a = !exclusive := by
  cases exclusive
  · exact decide_eq_true le_rfl
  · exact decide_eq_false (lt_irrefl a)

/-- A walk up starts at a position that splits the keys. -/
theorem exists_first (hs : s.sortedKeys.Pairwise (· < ·)) (start : Option String) (exclusive : Bool) :
    ∃ first ≤ s.sortedKeys.length,(∀ key ∈ s.sortedKeys.take first,fromAnchor start exclusive key = false) ∧
      (∀ key ∈ s.sortedKeys.drop first,fromAnchor start exclusive key = true) ∧
      (s.sortedKeys.length < 2^63 → ∀ skip < 2^64,s.startPosition start exclusive skip = addUsize first skip) := by
  cases start with
  | none =>
    refine ⟨0,by omega,by simp,fun _ _ => rfl,fun _ skip hskip => ?_⟩
    rw [addUsize,Nat.zero_add,Nat.mod_eq_of_lt hskip]
    rfl
  | some a =>
    cases hsearch : SortedList.search s.sortedKeys a with
    | error p =>
      obtain ⟨hp,hbefore,hafter⟩ := SortedList.search_error hs hsearch
      exact ⟨p,hp,fun key hkey => fromAnchor_before (hbefore key hkey) exclusive,
        fun key hkey => fromAnchor_behind (hafter key hkey) exclusive,fun _ skip _ => by simp [startPosition,hsearch]⟩
    | ok p =>
      obtain ⟨hp,hbefore,hat,hafter⟩ := around_of_getElem? hs (SortedList.search_ok hs hsearch)
      cases exclusive with
      | true =>
        refine ⟨p+1,hp,fun key hkey => ?_,fun key hkey => fromAnchor_behind (hafter key hkey) true,fun hroom skip _ => ?_⟩
        · rw [List.take_add_one,List.mem_append,SortedList.search_ok hs hsearch] at hkey
          rcases hkey with hkey | hkey
          · exact fromAnchor_before (hbefore key hkey) true
          · rw [List.mem_singleton.1 hkey]
            exact fromAnchor_self a true
        · have hone : addUsize p 1 = p+1 := Nat.mod_eq_of_lt (by omega)
          simp [startPosition,hsearch,hone]
      | false =>
        refine ⟨p,hp.le,fun key hkey => fromAnchor_before (hbefore key hkey) false,fun key hkey => ?_,fun hroom skip _ => ?_⟩
        · rw [hat] at hkey
          rcases List.mem_cons.1 hkey with rfl | hkey
          · exact fromAnchor_self key false
          · exact fromAnchor_behind (hafter key hkey) false
        · have hzero : addUsize p 0 = p := Nat.mod_eq_of_lt (by omega)
          simp [startPosition,hsearch,hzero]

/-- A walk down ends at a position that splits the keys. -/
theorem filter_downFromAnchor (hs : s.sortedKeys.Pairwise (· < ·)) (start : Option String) (exclusive : Bool) :
    s.topPosition start exclusive ≤ s.sortedKeys.length ∧
      s.sortedKeys.filter (downFromAnchor start exclusive) = s.sortedKeys.take (s.topPosition start exclusive) := by
  cases start with
  | none => simp [topPosition,downFromAnchor]
  | some a =>
    cases hsearch : SortedList.search s.sortedKeys a with
    | error p =>
      obtain ⟨hp,hbefore,hafter⟩ := SortedList.search_error hs hsearch
      have htop : s.topPosition (some a) exclusive = p := by simp [topPosition,hsearch]
      rw [htop]
      refine ⟨hp,filter_eq_take (fun key hkey => ?_) fun key hkey => ?_⟩
      · rw [downFromAnchor_eq (hbefore key hkey).ne,fromAnchor_before (hbefore key hkey)]
        rfl
      · rw [downFromAnchor_eq (hafter key hkey).ne',fromAnchor_behind (hafter key hkey)]
        rfl
    | ok p =>
      obtain ⟨hp,hbefore,hat,hafter⟩ := around_of_getElem? hs (SortedList.search_ok hs hsearch)
      have hdown : ∀ key ∈ s.sortedKeys.take p,downFromAnchor (some a) exclusive key = true := fun key hkey => by
        rw [downFromAnchor_eq (hbefore key hkey).ne,fromAnchor_before (hbefore key hkey)]
        rfl
      have hup : ∀ key ∈ s.sortedKeys.drop (p+1),downFromAnchor (some a) exclusive key = false := fun key hkey => by
        rw [downFromAnchor_eq (hafter key hkey).ne',fromAnchor_behind (hafter key hkey)]
        rfl
      cases exclusive with
      | true =>
        have htop : s.topPosition (some a) true = p := by simp [topPosition,hsearch]
        rw [htop]
        refine ⟨hp.le,filter_eq_take hdown fun key hkey => ?_⟩
        rw [hat] at hkey
        rcases List.mem_cons.1 hkey with rfl | hkey
        · exact downFromAnchor_self key true
        · exact hup key hkey
      | false =>
        have htop : s.topPosition (some a) false = p+1 := by simp [topPosition,hsearch]
        rw [htop]
        refine ⟨hp,filter_eq_take (fun key hkey => ?_) hup⟩
        rw [List.take_add_one,List.mem_append,SortedList.search_ok hs hsearch] at hkey
        rcases hkey with hkey | hkey
        · exact hdown key hkey
        · rw [List.mem_singleton.1 hkey]
          exact downFromAnchor_self a false

end positions

section delimits
variable {s : StorageEngine} {start : Option String} {exclusive : Bool} {offset limit : Option UInt64}

theorem addUsize_of_lt {a b : ℕ} (h : a+b < 2^64) : addUsize a b = a+b := Nat.mod_eq_of_lt h

theorem addUsize_round {a b back : ℕ} (h : a+b = back+2^64) (hback : back < 2^64) : addUsize a b = back := by
  unfold addUsize
  omega

theorem takeLimit_nil (limit : Option UInt64) : takeLimit limit [] = [] := by
  cases limit <;> simp [takeLimit]

theorem Delimits.not_of_nonempty {range : ℕ × ℕ} (hlt : range.1 < min range.2 s.sortedKeys.length) :
    ¬Delimits s range [] := by
  intro h
  have hlength := congrArg List.length h.slice
  rw [List.length_drop,List.length_take,List.length_nil] at hlength
  omega

/-- The page that starts at a position and the slice from there on. -/
theorem delimits_from {first : ℕ} (hfirst : first ≤ s.sortedKeys.length) (limit : Option UInt64) :
    Delimits s (first,(limit.map fun l => min (first+l.toNat) s.sortedKeys.length).getD s.sortedKeys.length)
      (takeLimit limit (s.sortedKeys.drop first)) := by
  cases limit with
  | none => exact ⟨hfirst,le_rfl,by simp [takeLimit]⟩
  | some l =>
    refine ⟨?_,?_,?_⟩
    · simp only [Option.map_some,Option.getD_some]
      omega
    · simp
    · simp only [Option.map_some,Option.getD_some,takeLimit]
      rw [← List.take_take,List.take_length,List.drop_take,Nat.add_sub_cancel_left]

/-- The slice of a walk up is its page exactly if its positions are machine numbers. -/
theorem sortedKeyRange_delimits (hs : s.sortedKeys.Pairwise (· < ·)) (hroom : s.sortedKeys.length < 2^63) :
    Delimits s (s.sortedKeyRange start exclusive offset limit) (s.pageUp start exclusive offset limit) ↔
      s.PositionsFit start exclusive offset limit := by
  obtain ⟨first,hfirst,hbefore,hafter,hstart⟩ := exists_first hs start exclusive
  have hpage : s.pageUp start exclusive offset limit = takeLimit limit (s.sortedKeys.drop (first+(offset.getD 0).toNat)) := by
    rw [pageUp,filter_eq_drop hbefore hafter,List.drop_drop]
  have hcount : s.keysBefore start exclusive = first := by
    rw [keysBefore,filter_eq_take (i := first) (fun a ha => by simp [hbefore a ha]) fun a ha => by simp [hafter a ha],
      List.length_take,Nat.min_eq_left hfirst]
  have hskip := (offset.getD 0).toNat_lt
  have hpos := hstart hroom _ hskip
  unfold PositionsFit sortedKeyRange
  simp only [hcount,hpos,hpage]
  generalize (offset.getD 0).toNat = skip at hskip ⊢
  by_cases hwrap : first+skip < 2^64
  · rw [addUsize_of_lt hwrap]
    split_ifs with hend
    · refine iff_of_true ⟨le_rfl,le_rfl,?_⟩ ⟨.inl hwrap,fun hlt => absurd hlt (by omega)⟩
      rw [List.drop_of_length_le hend,takeLimit_nil]
      simp
    · by_cases hfits : ∀ l,limit = some l → first+skip+l.toNat < 2^64
      · refine iff_of_true ?_ ⟨.inl hwrap,fun _ => hfits⟩
        have hadd : (limit.map fun l => min (addUsize (first+skip) l.toNat) s.sortedKeys.length) =
            limit.map fun l => min (first+skip+l.toNat) s.sortedKeys.length := by
          refine Option.map_congr fun l hl => ?_
          rw [addUsize_of_lt (hfits l hl)]
        rw [hadd]
        exact delimits_from (by omega) limit
      · refine iff_of_false (fun h => hfits fun l hl => ?_) fun h => hfits (h.2 (by omega))
        subst hl
        by_contra hover
        have hl := l.toNat_lt
        obtain ⟨back,hback⟩ := Nat.exists_eq_add_of_le' (Nat.le_of_not_lt hover)
        have hsum : addUsize (first+skip) l.toNat = back := addUsize_round hback (by omega)
        have hordered : first+skip ≤ min (addUsize (first+skip) l.toNat) s.sortedKeys.length := h.ordered
        rw [hsum] at hordered
        omega
  · -- the position comes round to one before the anchor
    obtain ⟨back,hback⟩ := Nat.exists_eq_add_of_le' (Nat.le_of_not_lt hwrap)
    have hbefore : back < first := by omega
    rw [addUsize_round hback (by omega),if_neg (by omega),List.drop_of_length_le (by omega),takeLimit_nil]
    have hunfit : limit ≠ some 0 → ¬((first+skip < 2^64 ∨ limit = some 0) ∧
        (first+skip < s.sortedKeys.length → ∀ l,limit = some l → first+skip+l.toNat < 2^64)) :=
      fun hne h => h.1.elim hwrap hne
    cases limit with
    | none =>
      refine iff_of_false (Delimits.not_of_nonempty ?_) (hunfit nofun)
      simp only [Option.map_none,Option.getD_none]
      omega
    | some l =>
      simp only [Option.map_some,Option.getD_some]
      by_cases hzero : l = 0
      · subst hzero
        have hstay : addUsize back (0 : UInt64).toNat = back := addUsize_of_lt (by rw [UInt64.toNat_zero]; omega)
        rw [hstay,Nat.min_eq_left (by omega)]
        refine iff_of_true ⟨le_rfl,by omega,?_⟩ ⟨.inr rfl,fun hlt => absurd hlt (by omega)⟩
        rw [List.drop_take,Nat.sub_self,List.take_zero]
      · have hpositive : 0 < l.toNat := by
          have := UInt64.toNat_inj.not.2 hzero
          simpa [Nat.pos_iff_ne_zero] using this
        have hl := l.toNat_lt
        refine iff_of_false (fun h => ?_) (hunfit fun heq => hzero (Option.some.inj heq))
        by_cases hover : back+l.toNat < 2^64
        · rw [addUsize_of_lt hover] at h
          refine Delimits.not_of_nonempty ?_ h
          dsimp only
          omega
        · obtain ⟨again,hagain⟩ := Nat.exists_eq_add_of_le' (Nat.le_of_not_lt hover)
          rw [addUsize_round hagain (by omega)] at h
          have hordered : back ≤ min again s.sortedKeys.length := h.ordered
          omega

/-- The slice of a walk down, which takes off what it has, is always its page. -/
theorem sortedKeyRangeReverse_delimits (hs : s.sortedKeys.Pairwise (· < ·)) :
    Delimits s (s.sortedKeyRangeReverse start exclusive offset limit) (s.pageDown start exclusive offset limit).reverse := by
  obtain ⟨htop,hfilter⟩ := filter_downFromAnchor hs start exclusive
  have hpage : s.pageDown start exclusive offset limit =
      takeLimit limit (s.sortedKeys.take (s.topPosition start exclusive-(offset.getD 0).toNat)).reverse := by
    rw [pageDown,hfilter,List.drop_reverse,List.length_take,Nat.min_eq_left htop,List.take_take,
      Nat.min_eq_left (Nat.sub_le _ _)]
  unfold sortedKeyRangeReverse
  rw [hpage]
  generalize hstop : s.topPosition start exclusive-(offset.getD 0).toNat = stop
  have hinside : stop ≤ s.sortedKeys.length := by omega
  refine ⟨Nat.min_le_right _ _,hinside,?_⟩
  cases limit with
  | none => simp [takeLimit]
  | some l =>
    simp only [Option.map_some,Option.getD_some,takeLimit]
    rw [Nat.min_eq_left (Nat.sub_le _ _),List.take_reverse,List.reverse_reverse,List.length_take,Nat.min_eq_left hinside]

/-- Both slices are the pages they stand for exactly if the positions of the walk up are machine numbers. -/
theorem sortedKeyRanges_delimit_iff (hs : s.sortedKeys.Pairwise (· < ·)) (hroom : s.sortedKeys.length < 2^63)
    (start : Option String) (exclusive : Bool) (offset limit : Option UInt64) :
    Delimits s (s.sortedKeyRange start exclusive offset limit) (s.pageUp start exclusive offset limit) ∧
      Delimits s (s.sortedKeyRangeReverse start exclusive offset limit) (s.pageDown start exclusive offset limit).reverse ↔
      s.PositionsFit start exclusive offset limit :=
  (and_iff_left (sortedKeyRangeReverse_delimits hs)).trans (sortedKeyRange_delimits hs hroom)

end delimits

def withKeys (keys : List String) : StorageEngine := {StorageEngine.fresh .default "c" none 0 with sortedKeys := keys}

theorem sortedKeyRanges_delimit_oneKey :
    Delimits (withKeys ["a","b","c"]) (1,2) ["b"] ∧ Delimits (withKeys ["a","b","c"]) (0,0) [] := by
  have hfit : (withKeys ["a","b","c"]).PositionsFit (some "a") true none (some 1) := by
    refine ⟨.inl (by decide),fun _ l hl => ?_⟩
    obtain rfl := Option.some.inj hl
    decide
  exact (sortedKeyRanges_delimit_iff (by decide) (by decide) (some "a") true none (some 1)).2 hfit

/-- From the second of two keys on, a page with the greatest limit ends before it starts. -/
theorem sortedKeyRange_greatestLimit :
    (withKeys ["a","b"]).sortedKeyRange (some "a") true none (some 0xFFFFFFFFFFFFFFFF) = (1,0) ∧
      ¬Delimits (withKeys ["a","b"]) ((withKeys ["a","b"]).sortedKeyRange (some "a") true none (some 0xFFFFFFFFFFFFFFFF))
        ((withKeys ["a","b"]).pageUp (some "a") true none (some 0xFFFFFFFFFFFFFFFF)) := by
  have hrange : (withKeys ["a","b"]).sortedKeyRange (some "a") true none (some 0xFFFFFFFFFFFFFFFF) = (1,0) := by decide
  refine ⟨hrange,fun h => ?_⟩
  have hordered := h.ordered
  rw [hrange] at hordered
  exact absurd hordered (by decide)

end StorageEngine

end HakoDB
