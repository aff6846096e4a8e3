import HakoDB.Document.Views

/-! Parts of a document, selected by dotted paths. A document can be cut down after it is decoded, or only the fields
are decoded that some path starts with. -/
namespace HakoDB
open ByteCodec ReadAll

/-- What the paths say about one key: nothing when the whole value is taken, else the paths below it. -/
def subPaths (key : String) (paths : List (List String)) : Option (List (List String)) :=
  if [key] ∈ paths then none
  else some (paths.filterMap fun p => if p.head? = some key then some p.tail else none)

mutual
def pruneValue : Value → List (List String) → Value
  | .map entries,paths => if paths.isEmpty then .map entries else .map (pruneEntries entries paths)
  | .array items,paths => if paths.isEmpty then .array items else .array (pruneItems items paths)
  | v,_ => v
def pruneEntries : List (String × Value) → List (List String) → List (String × Value)
  | [],_ => []
  | (key,v)::entries,paths =>
    match subPaths key paths with
    | none => (key,v)::pruneEntries entries paths
    | some [] => pruneEntries entries paths
    | some subs => (key,pruneValue v subs)::pruneEntries entries paths
def pruneItems : List Value → List (List String) → List Value
  | [],_ => []
  | v::items,paths => pruneValue v paths::pruneItems items paths
end

/-- The paths of a projection below one key. -/
def pathsBelow (projection : List String) (key : String) : List (List String) :=
  projection.filterMap fun p => if (pathSegments p).head? = some key then some (pathSegments p).tail else none

/-- A path with an empty segment selects nothing. -/
def pruneFieldValue (v : Value) (projection : List String) (key : String) : Option Value :=
  if [] ∈ pathsBelow projection key then some v
  else
    let subs := (pathsBelow projection key).filter fun rest => !rest.contains ""
    if subs.isEmpty then none else some (pruneValue v subs)

/-- The first segment of a path joins the others, unless it is empty or there already. -/
def pushFirst (out : List String) (path : String) : List String :=
  match (pathSegments path).head? with
  | some first => if first ≠ "" ∧ first ∉ out then out++[first] else out
  | none => out

def projectionPrefixes (projection : List String) : List String := projection.foldl pushFirst []

def nextField (bs : Bytes) : Option ((String × UInt8 × Bytes) × Bytes) := do
  let (key,bs) ← readShortText bs
  let (tag,bs) ← readByte bs
  let (data,bs) ← skipValue tag bs
  return ((key,tag,data),bs)

/-- The fields as the bytes list them; one that cannot be read ends the list. -/
def iterFields : ℕ → Bytes → List (String × UInt8 × Bytes)
  | 0,_ => []
  | n+1,bs =>
    match nextField bs with
    | none => []
    | some (e,bs) => e::iterFields n bs

def HakoDocView.iter (view : HakoDocView) : List (String × UInt8 × Bytes) := iterFields view.fieldsCount view.body

namespace HakoDoc

/-- One field of a projected document; fields that no path starts with are not decoded. -/
def projectEntry (projection : List String) (e : String × UInt8 × Bytes) : Option (Option (String × Value)) :=
  if projection.isEmpty || (projectionPrefixes projection).contains e.1 then do
    let v ← decodeValue e.2.1 e.2.2
    if projection.isEmpty then return some (e.1,v)
    else return (pruneFieldValue v projection e.1).map fun v => (e.1,v)
  else some none

def decodeProjected (bs : Bytes) (projection : List String) : Option HakoDoc := do
  let view ← HakoDocView.new bs
  let entries ← walkEntries view.fieldsCount view.body
  let fields ← entries.mapM (projectEntry projection)
  return ⟨fields.reduceOption,view.time⟩

def projectFields (doc : HakoDoc) (projection : List String) : List (String × Value) :=
  if projection.isEmpty then doc.fields
  else doc.fields.filterMap fun f => (pruneFieldValue f.2 projection f.1).map fun v => (f.1,v)

end HakoDoc

theorem iterFields_of_walk {n : ℕ} {bs : Bytes} {entries : List (String × UInt8 × Bytes)} (h : walkEntries n bs = some entries) :
    iterFields n bs = entries := by
  induction n generalizing bs entries with
  | zero =>
    rw [walkEntries] at h
    split_ifs at h
    exact Option.some.inj h
  | succ n ih =>
    rw [walkEntries] at h
    obtain ⟨⟨key,bs1⟩,hkey,h⟩ := Option.bind_eq_some_iff.1 h
    obtain ⟨⟨tag,bs2⟩,htag,h⟩ := Option.bind_eq_some_iff.1 h
    obtain ⟨⟨data,bs3⟩,hskip,h⟩ := Option.bind_eq_some_iff.1 h
    obtain ⟨rest,hrest,h⟩ := Option.bind_eq_some_iff.1 h
    cases h
    have hnext : nextField bs = some ((key,tag,data),bs3) := by simp [nextField,hkey,htag,hskip]
    rw [iterFields,hnext]
    exact congrArg ((key,tag,data)::·) (ih hrest)

variable {key : String} {projection : List String}

theorem mem_pushFirst {out : List String} {path : String} :
    key ∈ pushFirst out path ↔ key ∈ out ∨ key ≠ "" ∧ (pathSegments path).head? = some key := by
  unfold pushFirst
  cases (pathSegments path).head? with
  | none => simp
  | some first =>
    simp only [Option.some.injEq]
    split_ifs with h
    · rw [List.mem_append,List.mem_singleton]
      exact or_congr_right ⟨fun he => ⟨he ▸ h.1,he.symm⟩,fun he => he.2.symm⟩
    · refine ⟨.inl,?_⟩
      rintro (hmem | ⟨hne,rfl⟩)
      · exact hmem
      · by_contra hnot
        exact h ⟨hne,hnot⟩

theorem mem_projectionPrefixes :
    key ∈ projectionPrefixes projection ↔ key ≠ "" ∧ ∃ p ∈ projection,(pathSegments p).head? = some key := by
  unfold projectionPrefixes
  induction projection using List.reverseRecOn with
  | nil => simp
  | append_singleton ps p ih =>
    rw [List.foldl_append,List.foldl_cons,List.foldl_nil,mem_pushFirst,ih,← and_or_left]
    refine and_congr_right fun _ => ?_
    simp [or_and_right,exists_or]

/-- A key that no path starts with is not selected. -/
theorem pruneFieldValue_eq_none (h : ∀ p ∈ projection,(pathSegments p).head? ≠ some key) (v : Value) :
    pruneFieldValue v projection key = none := by
  have hbelow : pathsBelow projection key = [] :=
    List.filterMap_eq_nil_iff.2 fun p hp => if_neg (h p hp)
  simp [pruneFieldValue,hbelow]

theorem pruneFieldValue_of_not_mem (hfirst : ∀ p ∈ projection,(pathSegments p).head? ≠ some "")
    (h : key ∉ projectionPrefixes projection) (v : Value) : pruneFieldValue v projection key = none := by
  refine pruneFieldValue_eq_none (fun p hp hhead => h (mem_projectionPrefixes.2 ⟨?_,p,hp,hhead⟩)) v
  rintro rfl
  exact hfirst p hp hhead

section selected
variable {projection : List String} (hne : projection ≠ []) (hfirst : ∀ p ∈ projection,(pathSegments p).head? ≠ some "")
include hne hfirst

theorem HakoDoc.projectEntry_decoded {e : String × UInt8 × Bytes} {f : String × Value} (h : decodeEntry e = some f) :
    HakoDoc.projectEntry projection e = some ((pruneFieldValue f.2 projection f.1).map fun v => (f.1,v)) := by
  obtain ⟨v,hv,rfl⟩ := Option.map_eq_some_iff.1 h
  have hempty : projection.isEmpty = false := by simpa using hne
  unfold projectEntry
  by_cases hmem : e.1 ∈ projectionPrefixes projection
  · simp [hempty,hmem,hv]
  · simp [hempty,hmem,pruneFieldValue_of_not_mem hfirst hmem]

theorem mapM_projectEntry {entries : List (String × UInt8 × Bytes)} {fields : List (String × Value)}
    (h : entries.mapM decodeEntry = some fields) : entries.mapM (HakoDoc.projectEntry projection) =
      some (fields.map fun f => (pruneFieldValue f.2 projection f.1).map fun v => (f.1,v)) := by
  induction entries generalizing fields with
  | nil =>
    cases h
    rfl
  | cons e entries ih =>
    obtain ⟨f,fs,hf,hfs,rfl⟩ := mapM_cons_eq_some h
    rw [mapM_cons_option,HakoDoc.projectEntry_decoded hne hfirst hf,ih hfs]
    rfl

/-- Decoding only what is selected gives what a decoded document keeps. -/
theorem HakoDoc.decodeProjected_eq {bs : Bytes} {doc : HakoDoc} (h : HakoDoc.decode bs = some doc) :
    HakoDoc.decodeProjected bs projection = some ⟨doc.projectFields projection,doc.time⟩ := by
  rw [HakoDoc.decode_eq_walk] at h
  obtain ⟨view,hview,h⟩ := Option.bind_eq_some_iff.1 h
  obtain ⟨entries,hentries,h⟩ := Option.bind_eq_some_iff.1 h
  obtain ⟨fields,hfields,rfl⟩ := Option.map_eq_some_iff.1 h
  have hempty : projection.isEmpty = false := by simpa using hne
  simp [HakoDoc.decodeProjected,hview,hentries,mapM_projectEntry hne hfirst hfields,HakoDoc.projectFields,hempty,
    List.reduceOption,List.filterMap_map]

end selected

end HakoDB
