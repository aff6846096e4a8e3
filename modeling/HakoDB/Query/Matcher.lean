import HakoDB.Query.Plan

/-! Which documents meet the conditions of a plan. The id and the time are not in the body; a group of
alternatives is met by any one filter of any one group. -/
namespace HakoDB

namespace QueryPlan

/-- Numbers that are compared with ids are written out. -/
def stringifyId (formatFloat : F64 → String) (f : Filter) : Filter :=
  if f.field = "id" then
    match f.value with
    | .int i => {f with value := .string (toString i.toInt)}
    | .float x => {f with value := .string (formatFloat x)}
    | _ => f
  else f

def prepareOptimized (formatFloat : F64 → String) (p : QueryPlan) : QueryPlan :=
  {p with
    filters := p.filters.map (stringifyId formatFloat)
    orGroups := p.orGroups.map (·.map (stringifyId formatFloat))}

end QueryPlan

section matching
variable (text : TextOps) (docId : String) (doc : HakoDoc)

def isString (s : String) : Value → Bool
  | .string t => t = s
  | _ => false

/-- Comparisons with the id; a text and a list of texts are compared as they are. -/
def matchesIdFlexible (op : Operator) (value : Value) : Bool :=
  match value,op with
  | .string s,.eq => docId = s
  | .string s,.ne => docId ≠ s
  | .string s,.startsWith => s.toList.isPrefixOf docId.toList
  | .array items,.within => items.any (isString docId)
  | .array items,.notIn => !items.any (isString docId)
  | value,op => compareValues text (.string docId) op value

/-- What the id or the time says about a filter on it. -/
def metadataHit (f : Filter) : Option Bool :=
  if f.field = "id" then some (matchesIdFlexible text docId f.op f.value)
  else if f.field = "_time" then some (compareValues text (.int doc.time) f.op f.value)
  else none

/-- A field of the body under the filter's own name, or the value at the end of a dotted path. -/
def bodyHit (f : Filter) : Bool :=
  (doc.fields.any fun kv => kv.1 = f.field && compareValues text kv.2 f.op f.value) ||
    dotted f.field && (doc.getPath f.field).any fun v => compareValues text v f.op f.value

def andHit (f : Filter) : Bool := (metadataHit text docId doc f).getD (bodyHit text doc f)

/-- Among alternatives a field of the body may have the name of the id as well. -/
def orHit (f : Filter) : Bool := (metadataHit text docId doc f).getD false || bodyHit text doc f

def valuePath (v : Value) (path : String) : Option Value := if path = "" then some v else v.descend (pathSegments path)

def elemMatches (clause : ElemMatch) : Bool :=
  match doc.getPath clause.field with
  | some (.array items) => items.any fun item => clause.filters.all fun f =>
      (valuePath item f.field).any fun v => compareValues text v f.op f.value
  | _ => false

def elemMatchPass (p : QueryPlan) : Bool := p.elemMatch.all (elemMatches text doc)

/-- The filters and the groups of the plan, without its clauses over arrays. -/
def filtersPass (p : QueryPlan) : Bool :=
  p.filters.all (andHit text docId doc) && (p.orGroups.isEmpty || p.orGroups.any fun group => group.any (orHit text docId doc))

def matchesPlan (p : QueryPlan) : Bool := filtersPass text docId doc p && elemMatchPass text doc p

end matching

def unifiedMatchDecode (text : TextOps) (docId : String) (bytes : ByteCodec.Bytes) (p : QueryPlan) : Option HakoDoc :=
  (HakoDoc.decode bytes).filter fun doc => matchesPlan text docId doc p

end HakoDB
