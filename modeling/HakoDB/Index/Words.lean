import HakoDB.Index.Backfill
import HakoDB.Lib.Pieces
import HakoDB.Lib.TextOrder

/-! The word index. A search gives the documents that hold every token of the query; the comparisons of filters cut
texts at other characters and keep every word, so that they accept queries in which the index finds no token. -/
namespace HakoDB
open ByteCodec Pieces

/-- The tables of characters behind the text functions. -/
structure CharTables where
  toLowercase : String → String
  isAlphanumeric : Char → Bool
  isWhitespace : Char → Bool
  last_not_alphanumeric : isAlphanumeric (Char.ofNat 0x10FFFF) = false
  whitespace_not_alphanumeric : ∀ c,isWhitespace c → isAlphanumeric c = false

namespace CharTables
variable (u : CharTables)

def splitWhitespace (s : String) : List String :=
  (s.toList.splitOnP u.isWhitespace).filterMap fun w => if w = [] then none else some (.ofList w)

def separates (c : Char) : Bool := !u.isAlphanumeric c

/-- The runs of letters and digits that have more than one byte, in lower case. -/
def tokenize (s : String) : List String :=
  ((u.toLowercase s).toList.splitOnP u.separates).filterMap fun w =>
    if 1 < (asBytes (.ofList w)).length then some (.ofList w) else none

/-- Text functions that cut words by these tables. -/
def text (base : QueryText) : QueryText :=
  {base with toLowercase := u.toLowercase, splitWhitespace := u.splitWhitespace, tokenize := u.tokenize}

variable {u} {s t w : String}

theorem mem_splitWhitespace : w ∈ u.splitWhitespace s ↔ w.toList ≠ [] ∧ w.toList ∈ s.toList.splitOnP u.isWhitespace := by
  simp only [splitWhitespace,List.mem_filterMap,Option.ite_none_left_eq_some,Option.some.injEq]
  constructor
  · rintro ⟨cs,hcs,hne,rfl⟩
    simpa using ⟨hne,hcs⟩
  · rintro ⟨hne,hcs⟩
    exact ⟨w.toList,hcs,hne,String.ofList_toList⟩

theorem mem_tokenize : w ∈ u.tokenize s ↔
    1 < (asBytes w).length ∧ w.toList ∈ (u.toLowercase s).toList.splitOnP u.separates := by
  simp only [tokenize,List.mem_filterMap,Option.ite_none_right_eq_some,Option.some.injEq]
  constructor
  · rintro ⟨cs,hcs,hlong,rfl⟩
    simpa using ⟨hlong,hcs⟩
  · rintro ⟨hlong,hcs⟩
    exact ⟨w.toList,hcs,by rwa [String.ofList_toList],String.ofList_toList⟩

theorem toList_ne_nil (h : 1 < (asBytes w).length) : w.toList ≠ [] := by
  intro hnil
  rw [TextOrder.asBytes_eq_flatMap,hnil] at h
  simp at h

theorem asBytes_length_le (h : t.toList <+: w.toList) : (asBytes t).length ≤ (asBytes w).length := by
  obtain ⟨rest,hrest⟩ := h
  rw [TextOrder.asBytes_eq_flatMap,TextOrder.asBytes_eq_flatMap,← hrest,List.flatMap_append,List.length_append]
  omega

/-- No token holds the character that ends the range of a search. -/
theorem lt_last (h : w ∈ u.tokenize s) : ∀ c ∈ w.toList,c < Char.ofNat 0x10FFFF := by
  intro c hc
  have halnum : u.isAlphanumeric c = true := by simpa [separates] using not_separator (mem_tokenize.1 h).2 c hc
  have hne : c ≠ Char.ofNat 0x10FFFF := by
    rintro rfl
    rw [u.last_not_alphanumeric] at halnum
    cases halnum
  have hle : c.val.toNat ≤ 0x10FFFF := by
    rcases c.valid with hc | hc <;> omega
  refine lt_of_le_of_ne ?_ hne
  exact UInt32.le_iff_toNat_le.2 hle

/-- A token stands within a word between blanks. -/
theorem exists_word (h : t ∈ u.tokenize s) :
    ∃ w ∈ u.splitWhitespace (u.toLowercase s),t.toList ∈ w.toList.splitOnP u.separates := by
  obtain ⟨hlong,hpiece⟩ := mem_tokenize.1 h
  have hfiner : ∀ c,u.isWhitespace c → u.separates c := fun c hc => by
    simp [separates,u.whitespace_not_alphanumeric c hc]
  rw [← flatMap_splitOnP hfiner,List.mem_flatMap] at hpiece
  obtain ⟨cs,hcs,hpiece⟩ := hpiece
  have hne : cs ≠ [] := by
    rintro rfl
    exact toList_ne_nil hlong (by simpa [List.splitOnP_nil] using hpiece)
  exact ⟨.ofList cs,mem_splitWhitespace.2 (by simpa using ⟨hne,hcs⟩),by simpa using hpiece⟩

/-- What stands within a word of a text is cut out of the text as it is cut out of the word. -/
theorem piece_of_word (hw : w ∈ u.splitWhitespace s) {cs : List Char} (h : cs ∈ w.toList.splitOnP u.separates) :
    cs ∈ s.toList.splitOnP u.separates := by
  have hfiner : ∀ c,u.isWhitespace c → u.separates c := fun c hc => by
    simp [separates,u.whitespace_not_alphanumeric c hc]
  rw [← flatMap_splitOnP hfiner,List.mem_flatMap]
  exact ⟨w.toList,(mem_splitWhitespace.1 hw).2,h⟩

end CharTables

/-- The tables of ASCII. -/
def CharTables.ascii : CharTables where
  toLowercase s := .ofList (s.toList.map Char.toLower)
  isAlphanumeric := Char.isAlphanum
  isWhitespace := Char.isWhitespace
  last_not_alphanumeric := by decide
  whitespace_not_alphanumeric c hc := by
    simp only [Char.isWhitespace,Bool.or_eq_true,decide_eq_true_eq] at hc
    rcases hc with ((rfl | rfl) | rfl) | rfl <;> decide

def asciiWords : QueryText := {asciiText with tokenize := CharTables.ascii.tokenize, formatFloat := fun _ => ""}

namespace InvertedIndex
variable {text : QueryText} {m : InvertedIndex} {found : String → Option (List String)} {id : String}

theorem mem_items {set : OrderedSet String} : id ∈ set.items ↔ (id,()) ∈ set.entries := by
  simp only [OrderedSet.items,List.mem_map]
  constructor
  · rintro ⟨e,he,rfl⟩
    exact he
  · exact fun h => ⟨(id,()),h,rfl⟩

/-- The index holds the text for the document. -/
def Holds (text : QueryText) (m : InvertedIndex) (body id : String) : Prop := ∀ w ∈ text.tokenize body,m.Has w id

theorem has_insertText (text : QueryText) (m : InvertedIndex) (body docId w id : String) :
    (m.insertText text body docId).Has w id ↔ id = docId ∧ w ∈ text.tokenize body ∨ m.Has w id := by
  have hadd : m.insertText text body docId = Postings.addAll m ((text.tokenize body).map fun w => (w,docId)) := by
    rw [insertText,Postings.addAll,List.foldl_map]
  rw [hadd,Postings.has_addAll]
  simp only [List.mem_map,Prod.mk.injEq]
  constructor
  · rintro (⟨v,hv,rfl,rfl⟩ | h)
    · exact .inl ⟨rfl,hv⟩
    · exact .inr h
  · rintro (⟨rfl,hw⟩ | h)
    · exact .inl ⟨w,hw,rfl,rfl⟩
    · exact .inr h

theorem holds_insertText (text : QueryText) (m : InvertedIndex) (body id : String) :
    (m.insertText text body id).Holds text body id :=
  fun w hw => (has_insertText text m body id w id).2 (.inl ⟨rfl,hw⟩)

/-- Texts inserted one after another, each for its document. -/
def insertTexts (text : QueryText) (m : InvertedIndex) (texts : List (String × String)) : InvertedIndex :=
  texts.foldl (fun m e => m.insertText text e.1 e.2) m

theorem has_insertTexts (text : QueryText) (m : InvertedIndex) (texts : List (String × String)) (w id : String) :
    (m.insertTexts text texts).Has w id ↔ (∃ e ∈ texts,e.2 = id ∧ w ∈ text.tokenize e.1) ∨ m.Has w id := by
  induction texts generalizing m with
  | nil => simp [insertTexts]
  | cons e texts ih =>
    have hstep : m.insertTexts text (e::texts) = (m.insertText text e.1 e.2).insertTexts text texts := rfl
    rw [hstep,ih,has_insertText,List.exists_mem_cons_iff,or_left_comm,or_assoc,eq_comm (a := e.2)]

theorem mem_foldlM_filter (words : List String) (ids : List String) :
    id ∈ (words.foldlM (fun ids w => (found w).map fun more => ids.filter (· ∈ more)) ids).getD [] ↔
      id ∈ ids ∧ ∀ w ∈ words,∃ more,found w = some more ∧ id ∈ more := by
  induction words generalizing ids with
  | nil => simp [pure]
  | cons w words ih =>
    rw [List.foldlM_cons,List.forall_mem_cons]
    cases hw : found w with
    | none => simp
    | some more =>
      have hrest := ih (ids.filter (· ∈ more))
      simp only [List.mem_filter,decide_eq_true_eq] at hrest
      rw [Option.map_some,Option.bind_eq_bind,Option.bind_some,hrest]
      simp [and_assoc]

/-- A search for at least one word gives what every word gives. -/
theorem mem_intersect {words : List String} (hwords : words ≠ []) :
    id ∈ (intersect found words).getD [] ↔ ∀ w ∈ words,∃ ids,found w = some ids ∧ id ∈ ids := by
  obtain ⟨w,words,rfl⟩ := List.exists_cons_of_ne_nil hwords
  rw [intersect,List.forall_mem_cons]
  cases hw : found w with
  | none => simp [Bind.bindLeft]
  | some ids =>
    simp only [Bind.bindLeft,Option.bind_eq_bind,Option.bind_some,Option.some.injEq,exists_eq_left']
    exact mem_foldlM_filter words ids

theorem mem_search {q : String} (hq : text.tokenize q ≠ []) :
    id ∈ (m.search text q).getD [] ↔ ∀ w ∈ text.tokenize q,m.Has w id := by
  rw [search,mem_intersect hq]
  refine forall₂_congr fun w _ => ?_
  simp [Postings.Has,mem_items]

/-- Ids put into a set one after another. -/
theorem mem_foldl_insert (ids : List String) (set : OrderedSet String) :
    (id,()) ∈ (ids.foldl (fun set id => set.insert id ()) set).entries ↔ id ∈ ids ∨ (id,()) ∈ set.entries := by
  induction ids generalizing set with
  | nil => simp
  | cons a ids ih =>
    rw [List.foldl_cons,ih,OrderedMap.mem_insert,List.mem_cons]
    by_cases ha : id = a <;> simp [ha]

theorem mem_idsByPrefix (m : InvertedIndex) (word : String) :
    (∃ ids,m.idsByPrefix word = some ids ∧ id ∈ ids) ↔
      ∃ w,(word ≤ w ∧ w < word.push (Char.ofNat 0x10FFFF)) ∧ m.Has w id := by
  have hunion : ∀ entries : List (String × OrderedSet String),∀ set : OrderedSet String,
      (id,()) ∈ (entries.foldl (fun ids e => e.2.items.foldl (fun ids id => ids.insert id ()) ids) set).entries ↔
        (∃ e ∈ entries,id ∈ e.2.items) ∨ (id,()) ∈ set.entries := by
    intro entries
    induction entries with
    | nil => simp
    | cons e entries ih =>
      intro set
      rw [List.foldl_cons,ih,mem_foldl_insert,List.exists_mem_cons_iff,or_left_comm,or_assoc]
  have hrange := hunion (m.range fun w => word ≤ w && w < word.push (Char.ofNat 0x10FFFF)) .empty
  simp only [idsByPrefix]
  generalize List.foldl _ _ _ = set at hrange ⊢
  have hset : (∃ ids,(if set.entries.isEmpty then none else some set.items) = some ids ∧ id ∈ ids) ↔
      (id,()) ∈ set.entries := by
    cases hs : set.entries with
    | nil => simp
    | cons e es => simp [mem_items,hs]
  rw [hset,hrange]
  simp only [OrderedMap.range,List.mem_filter,Bool.and_eq_true,decide_eq_true_eq,OrderedMap.empty,List.not_mem_nil,or_false]
  constructor
  · rintro ⟨e,⟨hmem,hbetween⟩,hid⟩
    exact ⟨e.1,hbetween,e.2,OrderedMap.get_eq_some.2 hmem,by simpa [mem_items] using hid⟩
  · rintro ⟨w,hbetween,ids,hget,hid⟩
    exact ⟨(w,ids),⟨OrderedMap.get_eq_some.1 hget,hbetween⟩,by simpa [mem_items] using hid⟩

theorem mem_meet (ids words : List String) :
    id ∈ (searchByPrefix.meet m ids words).getD [] ↔
      id ∈ ids ∧ ∀ w ∈ words,∃ more,m.idsByPrefix w = some more ∧ id ∈ more := by
  induction words generalizing ids with
  | nil => simp [searchByPrefix.meet]
  | cons w words ih =>
    rw [searchByPrefix.meet,List.forall_mem_cons]
    cases hw : m.idsByPrefix w with
    | none => simp
    | some more =>
      have hrest := ih (ids.filter (· ∈ more))
      simp only [List.mem_filter,decide_eq_true_eq] at hrest
      dsimp only
      split_ifs with hboth
      · have hnone : ¬(id ∈ ids ∧ id ∈ more) := by
          have := List.isEmpty_iff.1 hboth
          simpa using List.filter_eq_nil_iff.1 this id
        simp only [Option.getD_some,List.not_mem_nil,false_iff]
        rintro ⟨hid,⟨more',hmore',hid'⟩,-⟩
        obtain rfl := Option.some.inj hmore'
        exact hnone ⟨hid,hid'⟩
      · rw [hrest]
        simp [and_assoc]

theorem mem_searchByPrefix {q : String} (hq : text.tokenize q ≠ []) :
    id ∈ (m.searchByPrefix text q).getD [] ↔
      ∀ word ∈ text.tokenize q,∃ w,(word ≤ w ∧ w < word.push (Char.ofNat 0x10FFFF)) ∧ m.Has w id := by
  simp only [← mem_idsByPrefix]
  obtain ⟨w,words,hcons⟩ := List.exists_cons_of_ne_nil hq
  rw [searchByPrefix,hcons,List.forall_mem_cons]
  cases hw : m.idsByPrefix w with
  | none => simp [hw]
  | some ids =>
    simp only [hw,Option.bind_some,Option.some.injEq,exists_eq_left']
    exact mem_meet ids words

end InvertedIndex

section searches
variable {u : CharTables} {base : QueryText} {body q id : String}

/-- The range of a search holds the tokens that start with the word. -/
theorem CharTables.between_iff {s v : String} (hv : v ∈ u.tokenize s) (word : String) :
    (word ≤ v ∧ v < word.push (Char.ofNat 0x10FFFF)) ↔ word.toList <+: v.toList := by
  rw [prefix_iff_between (lt_last hv),← not_lt,String.lt_iff,String.lt_iff,String.toList_push]

/-- After any insertions the two searches give exactly the documents in which every token of the query is a
token, or starts one. -/
theorem searches_insertTexts (u : CharTables) (base : QueryText) (texts : List (String × String)) (q id : String)
    (hq : u.tokenize q ≠ []) :
    (id ∈ ((InvertedIndex.insertTexts (u.text base) .empty texts).search (u.text base) q).getD [] ↔
      ∀ w ∈ u.tokenize q,∃ e ∈ texts,e.2 = id ∧ w ∈ u.tokenize e.1) ∧
    (id ∈ ((InvertedIndex.insertTexts (u.text base) .empty texts).searchByPrefix (u.text base) q).getD [] ↔
      ∀ w ∈ u.tokenize q,∃ e ∈ texts,e.2 = id ∧ ∃ v ∈ u.tokenize e.1,w.toList <+: v.toList) := by
  have hhas : ∀ w,(InvertedIndex.insertTexts (u.text base) .empty texts).Has w id ↔
      ∃ e ∈ texts,e.2 = id ∧ w ∈ u.tokenize e.1 := by
    intro w
    rw [InvertedIndex.has_insertTexts]
    simp [Postings.Has,OrderedMap.get,OrderedMap.empty,CharTables.text]
  constructor
  · rw [InvertedIndex.mem_search hq]
    exact forall₂_congr fun w _ => hhas w
  · rw [InvertedIndex.mem_searchByPrefix hq]
    refine forall₂_congr fun w _ => ?_
    simp only [hhas]
    constructor
    · rintro ⟨v,hbetween,e,he,hid,hv⟩
      exact ⟨e,he,hid,v,hv,(CharTables.between_iff hv w).1 hbetween⟩
    · rintro ⟨e,he,hid,v,hv,hstart⟩
      exact ⟨v,(CharTables.between_iff hv w).2 hstart,e,he,hid,hv⟩

theorem searches_insertTexts_noodles : CharTables.ascii.tokenize "indom" ≠ [] ∧
    "d1" ∈ ((InvertedIndex.insertTexts (CharTables.ascii.text asciiWords) .empty
      [("Indomie Goreng","d1"),("Mie Sedap","d2")]).searchByPrefix (CharTables.ascii.text asciiWords) "indom").getD [] := by
  have htoken : CharTables.ascii.tokenize "indom" ≠ [] := by decide +kernel
  exact ⟨htoken,(searches_insertTexts .ascii asciiWords [("Indomie Goreng","d1"),("Mie Sedap","d2")] "indom" "d1"
    htoken).2.2 (by decide +kernel)⟩

theorem mem_tokenize_of_matchesWords (h : matchesWords (u.text base).toTextOps body q = true) {t : String}
    (ht : t ∈ u.tokenize q) : t ∈ u.tokenize body := by
  obtain ⟨w,hw,hpiece⟩ := CharTables.exists_word ht
  have hdoc : w ∈ u.splitWhitespace (u.toLowercase body) := List.contains_iff_mem.1 (List.all_eq_true.1 h w hw)
  exact CharTables.mem_tokenize.2 ⟨(CharTables.mem_tokenize.1 ht).1,CharTables.piece_of_word hdoc hpiece⟩

theorem exists_token_of_matchesPrefixes (h : matchesPrefixes (u.text base).toTextOps body q = true) {t : String}
    (ht : t ∈ u.tokenize q) : ∃ v ∈ u.tokenize body,t.toList <+: v.toList := by
  obtain ⟨w,hw,hpiece⟩ := CharTables.exists_word ht
  obtain ⟨d,hd,hstart⟩ := List.any_eq_true.1 (List.all_eq_true.1 h w hw)
  obtain ⟨cs,hcs,hpre⟩ := exists_piece_of_front (List.isPrefixOf_iff_prefix.1 hstart) hpiece
  have hstart' : t.toList <+: (String.ofList cs).toList := by simpa using hpre
  refine ⟨.ofList cs,CharTables.mem_tokenize.2 ⟨?_,?_⟩,hstart'⟩
  · exact (CharTables.mem_tokenize.1 ht).1.trans_le (CharTables.asBytes_length_le hstart')
  · rw [String.toList_ofList]
    exact CharTables.piece_of_word hd hcs

theorem matchesPrefixes_of_matchesWords {text : TextOps} (h : matchesWords text body q = true) :
    matchesPrefixes text body q = true := by
  refine List.all_eq_true.2 fun w hw => List.any_eq_true.2 ⟨w,?_,?_⟩
  · simpa using List.all_eq_true.1 h w hw
  · exact List.isPrefixOf_iff_prefix.2 List.prefix_rfl

/-- An index that holds a text finds it by every query that the comparisons accept, exactly if an accepted query
has a token. -/
theorem searches_accepted_iff (u : CharTables) (base : QueryText) {m : InvertedIndex} (body q id : String)
    (hm : m.Holds (u.text base) body id) :
    ((compareValues (u.text base).toTextOps (.string body) .matchWords (.string q) = true →
        id ∈ (m.search (u.text base) q).getD []) ∧
      (compareValues (u.text base).toTextOps (.string body) .matchPrefix (.string q) = true →
        id ∈ (m.searchByPrefix (u.text base) q).getD [])) ↔
    (compareValues (u.text base).toTextOps (.string body) .matchPrefix (.string q) = true → u.tokenize q ≠ []) := by
  change ((matchesWords (u.text base).toTextOps body q = true → _) ∧
    (matchesPrefixes (u.text base).toTextOps body q = true → _)) ↔
    (matchesPrefixes (u.text base).toTextOps body q = true → _)
  constructor
  · rintro ⟨-,hfront⟩ haccepts hnone
    have hfound := hfront haccepts
    have hempty : (u.text base).tokenize q = [] := hnone
    simp [InvertedIndex.searchByPrefix,hempty] at hfound
  · intro htoken
    refine ⟨fun haccepts => ?_,fun haccepts => ?_⟩
    · have hq := htoken (matchesPrefixes_of_matchesWords haccepts)
      exact (InvertedIndex.mem_search hq).2 fun w hw => hm w (mem_tokenize_of_matchesWords haccepts hw)
    · refine (InvertedIndex.mem_searchByPrefix (htoken haccepts)).2 fun w hw => ?_
      obtain ⟨v,hv,hstart⟩ := exists_token_of_matchesPrefixes haccepts hw
      exact ⟨v,(CharTables.between_iff hv w).2 hstart,hm v hv⟩

theorem searches_accepted_cotton : (InvertedIndex.insertText (CharTables.ascii.text asciiWords) .empty
      "Cotton shirt" "d").Holds (CharTables.ascii.text asciiWords) "Cotton shirt" "d" ∧
    "d" ∈ ((InvertedIndex.insertText (CharTables.ascii.text asciiWords) .empty "Cotton shirt" "d").search
      (CharTables.ascii.text asciiWords) "cotton").getD [] := by
  have hholds := InvertedIndex.holds_insertText (CharTables.ascii.text asciiWords) .empty "Cotton shirt" "d"
  exact ⟨hholds,((searches_accepted_iff .ascii asciiWords "Cotton shirt" "cotton" "d" hholds).2 (by decide +kernel)).1
    (by decide +kernel)⟩

/-- A document with the word "c" is accepted for the query "c", and the index finds nothing. -/
theorem search_loses_letter :
    compareValues (CharTables.ascii.text asciiWords).toTextOps (.string "learn c") .matchWords (.string "c") = true ∧
    compareValues (CharTables.ascii.text asciiWords).toTextOps (.string "learn c") .matchPrefix (.string "c") = true ∧
    (InvertedIndex.insertText (CharTables.ascii.text asciiWords) .empty "learn c" "d").search
      (CharTables.ascii.text asciiWords) "c" = none ∧
    (InvertedIndex.insertText (CharTables.ascii.text asciiWords) .empty "learn c" "d").searchByPrefix
      (CharTables.ascii.text asciiWords) "c" = none := by
  decide +kernel

end searches

end HakoDB
