import HakoDB.Query.Grouping

/-! Collection schemas: declared fields are checked, and missing ones get their default, before a
document is stored. -/
namespace HakoDB

inductive FieldKind
  | string | int | float | bool | null | array | map | bytes | timestamp | any
  deriving DecidableEq, Repr

namespace FieldKind

def name : FieldKind → String
  | string => "string"
  | int => "int"
  | float => "float"
  | bool => "bool"
  | null => "null"
  | array => "array"
  | map => "map"
  | bytes => "bytes"
  | timestamp => "timestamp"
  | any => "any"

def matches' : FieldKind → Value → Bool
  | any,_ => true
  | string,.string _ => true
  | int,.int _ => true
  | float,.float _ => true
  | bool,.bool _ => true
  | null,.null | null,.serverTimestamp => true
  | array,.array _ => true
  | map,.map _ => true
  | bytes,.binary _ => true
  | timestamp,.timestamp _ => true
  | _,_ => false

end FieldKind

structure FieldRule where
  name : String
  kind : FieldKind
  required : Bool
  default : Option Value

structure CollectionSchema where
  fields : List FieldRule

def FieldRule.Holds (rule : FieldRule) (doc : HakoDoc) : Prop :=
  match doc.get rule.name with
  | some v => rule.kind.matches' v = true
  | none => rule.required = false ∧ rule.default = none

def schemaViolation {α : Type} (collection field expected : String) : Res α :=
  .error (.error (.schemaViolation collection field expected))

theorem HakoDoc.ascending_insert {doc : HakoDoc} (h : doc.Ascending) (k : String) (v : Value) : (doc.insert k v).Ascending := by
  rw [HakoDoc.insert_eq h]
  exact OrderedMap.pairwise_insertEntry h k v

theorem HakoDoc.get_insert {doc : HakoDoc} (h : doc.Ascending) (k k' : String) (v : Value) :
    (doc.insert k v).get k' = if k' = k then some v else doc.get k' := by
  rw [HakoDoc.get_eq_find? (ascending_insert h k v),HakoDoc.get_eq_find? h,HakoDoc.insert_eq h]
  exact OrderedMap.get_insert ⟨doc.fields,h⟩ k k' v

namespace CollectionSchema

def applyRule (collection : String) (doc : HakoDoc) (rule : FieldRule) : Res HakoDoc :=
  match doc.get rule.name with
  | some v =>
    if rule.kind.matches' v then .ok doc
    else schemaViolation collection rule.name rule.kind.name
  | none =>
    match rule.default with
    | some v => .ok (doc.insert rule.name v)
    | none =>
      if rule.required then schemaViolation collection rule.name ("present "++rule.kind.name)
      else .ok doc

def apply (schema : CollectionSchema) (collection : String) (doc : HakoDoc) : Res HakoDoc :=
  schema.fields.foldlM (applyRule collection) doc

/-- One rule of a declaration, after rules for the names seen. -/
def validateRule (seen : List String) (rule : FieldRule) : Res (List String) :=
  let invalid msg := .error (.error (.invalidInput ("schema: "++msg)))
  if rule.name = "" then invalid "empty field name"
  else if '.' ∈ rule.name.toList then
    invalid ("nested path `"++rule.name++"` is not supported yet (top-level rules only)")
  else if rule.name ∈ seen then invalid ("duplicate rule for `"++rule.name++"`")
  else if rule.default.any (!rule.kind.matches' ·) then
    invalid ("default for `"++rule.name++"` is not a "++rule.kind.name)
  else .ok (rule.name::seen)

def validate (schema : CollectionSchema) : Res Unit := do
  let _ ← schema.fields.foldlM validateRule []

/-- What an accepted document becomes: the defaults of its missing fields filled in. -/
def fillRule (doc : HakoDoc) (rule : FieldRule) : HakoDoc :=
  match doc.get rule.name,rule.default with
  | none,some v => doc.insert rule.name v
  | _,_ => doc

def fill (schema : CollectionSchema) (doc : HakoDoc) : HakoDoc := schema.fields.foldl fillRule doc

variable {collection : String} {doc doc' : HakoDoc}

theorem applyRule_eq_fillRule {rule : FieldRule} (h : applyRule collection doc rule = .ok doc') :
    doc' = fillRule doc rule := by
  unfold applyRule schemaViolation at h
  unfold fillRule
  split at h
  · rename_i v hget
    split at h
    · cases h
      simp [hget]
    · cases h
  · rename_i hget
    split at h
    · rename_i v hdef
      cases h
      simp [hget,hdef]
    · rename_i hdef
      split at h
      · cases h
      · cases h
        simp [hget,hdef]

theorem apply_eq_fill {schema : CollectionSchema} (h : schema.apply collection doc = .ok doc') :
    doc' = schema.fill doc := by
  unfold apply at h
  unfold fill
  generalize schema.fields = rules at h ⊢
  induction rules generalizing doc with
  | nil =>
    cases h
    rfl
  | cons rule rules ih =>
    rw [List.foldlM_cons] at h
    obtain ⟨doc1,hr,hrest⟩ := bind_eq_ok.mp h
    rw [List.foldl_cons,← applyRule_eq_fillRule hr]
    exact ih hrest

variable {rule : FieldRule} {seen names : List String}

theorem validateRule_ok (h : validateRule seen rule = .ok names) :
    names = rule.name::seen ∧ rule.name ∉ seen ∧ ∀ v ∈ rule.default,rule.kind.matches' v = true := by
  unfold validateRule at h
  dsimp only at h
  split_ifs at h with hempty hdot hseen hdefault
  cases h
  refine ⟨rfl,hseen,fun v hv => ?_⟩
  simp_all

/-- A rule makes itself hold and touches no other field. -/
theorem applyRule_ok (hdoc : doc.Ascending) (hdefault : ∀ v ∈ rule.default,rule.kind.matches' v = true)
    (h : applyRule collection doc rule = .ok doc') :
    doc'.Ascending ∧ rule.Holds doc' ∧ ∀ k ≠ rule.name,doc'.get k = doc.get k := by
  unfold applyRule schemaViolation at h
  unfold FieldRule.Holds
  cases hget : doc.get rule.name <;> cases hdef : rule.default <;>
    grind [HakoDoc.get_insert,HakoDoc.ascending_insert]

theorem foldlM_applyRule_ok {rules : List FieldRule} (hvalid : rules.foldlM validateRule seen = .ok names)
    (hdoc : doc.Ascending) (h : rules.foldlM (applyRule collection) doc = .ok doc') :
    (∀ k ∈ seen,doc'.get k = doc.get k) ∧ ∀ r ∈ rules,r.Holds doc' := by
  -- Later rules leave the names seen alone.
  induction rules generalizing seen doc with
  | nil =>
    cases h
    simp
  | cons rule rules ih =>
    rw [List.foldlM_cons] at hvalid h
    obtain ⟨_,hv,hvalid⟩ := bind_eq_ok.1 hvalid
    obtain ⟨doc1,hr,hrest⟩ := bind_eq_ok.1 h
    obtain ⟨rfl,hnew,hdefault⟩ := validateRule_ok hv
    obtain ⟨hasc,hholds,hframe⟩ := applyRule_ok hdoc hdefault hr
    obtain ⟨hkeep,hall⟩ := ih hvalid hasc hrest
    unfold FieldRule.Holds at *
    grind

/-- What a declared schema lets in obeys each of its rules. -/
theorem apply_holds {schema : CollectionSchema} (hvalid : schema.validate = .ok ()) (hdoc : doc.Ascending)
    (h : schema.apply collection doc = .ok doc') : ∀ r ∈ schema.fields,r.Holds doc' := by
  obtain ⟨names,hnames,-⟩ := bind_eq_ok.1 hvalid
  exact (foldlM_applyRule_ok hnames hdoc h).2

def countSchema : CollectionSchema := ⟨[⟨"n",.int,true,some (.int 1)⟩]⟩

theorem apply_holds_count : ∃ doc',countSchema.apply "c" .empty = .ok doc' ∧ ∀ r ∈ countSchema.fields,r.Holds doc' := by
  obtain ⟨doc',h⟩ : ∃ doc',countSchema.apply "c" .empty = .ok doc' := ⟨_,rfl⟩
  have hempty : HakoDoc.empty.Ascending := List.Pairwise.nil
  exact ⟨doc',h,apply_holds rfl hempty h⟩

end CollectionSchema

end HakoDB
