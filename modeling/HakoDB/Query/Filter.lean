import HakoDB.Document.Order

/-! Filters: one comparison for every operator, shared by the queries and by the filtered indexes. -/
namespace HakoDB

inductive Operator
  | eq | ne | gt | gte | lt | lte | matchWords | matchPrefix | contains | startsWith | within
  | arrayContains | arrayContainsAny | arrayAllEq | notIn | near | traverse
  deriving DecidableEq, Repr

inductive FilterLogic
  | and | or
  deriving DecidableEq, Repr

structure Filter where
  field : String
  op : Operator
  value : Value
  deriving DecidableEq

structure FilterGroup where
  logic : FilterLogic
  filters : List Filter
  deriving DecidableEq

/-- What the comparison takes from the standard library's handling of text. -/
structure TextOps where
  toLowercase : String → String
  splitWhitespace : String → List String
  trim : String → String
  parseFloat : String → Option F64

def evalOrdering (ord : Ordering) : Operator → Bool
  | .eq => ord = .eq
  | .ne => ord ≠ .eq
  | .gt => ord = .gt
  | .gte => ord = .gt ∨ ord = .eq
  | .lt => ord = .lt
  | .lte => ord = .lt ∨ ord = .eq
  | _ => false

def digitsValue : List Char → Option ℕ
  | [] => none
  | cs => if cs.all Char.isDigit then some (cs.foldl (fun n c => 10*n+(c.toNat - 48)) 0) else none

/-- An optional sign and decimal digits, within 64 bits. -/
def parseInt64 (s : String) : Option Int64 :=
  let signed : Option ℤ :=
    match s.toList with
    | '-'::cs => (digitsValue cs).map fun n => -(n : ℤ)
    | '+'::cs => (digitsValue cs).map fun n => (n : ℤ)
    | cs => (digitsValue cs).map fun n => (n : ℤ)
  signed.bind fun n => if -2^63 ≤ n ∧ n < 2^63 then some (Int64.ofInt n) else none

/-- The text functions on ASCII text, with whole numbers for the numbers. -/
def asciiText : TextOps where
  toLowercase s := s.map Char.toLower
  splitWhitespace s := (s.toList.splitOnP Char.isWhitespace).filterMap fun w => if w = [] then none else some (.ofList w)
  trim s := .ofList ((s.toList.dropWhile Char.isWhitespace).reverse.dropWhile Char.isWhitespace).reverse
  parseFloat s := (parseInt64 s).map F64.ofInt64

section compare
variable (text : TextOps)

def parseBoolLike (input : String) : Option Bool :=
  let s := (text.trim input).map Char.toLower
  if s = "true" then some true else if s = "false" then some false else none

/-- Every word of the filter is a word of the document. -/
def matchesWords (doc filter : String) : Bool :=
  let docWords := text.splitWhitespace (text.toLowercase doc)
  (text.splitWhitespace (text.toLowercase filter)).all fun w => docWords.contains w

/-- Every word of the filter starts a word of the document. -/
def matchesPrefixes (doc filter : String) : Bool :=
  let docWords := text.splitWhitespace (text.toLowercase doc)
  (text.splitWhitespace (text.toLowercase filter)).all fun w =>
    docWords.any fun d => w.toList.isPrefixOf d.toList

def compareStrings (d f : String) : Operator → Bool
  | .startsWith => f.toList.isPrefixOf d.toList
  | .contains => d.toList.tails.any fun rest => f.toList.isPrefixOf rest
  | .matchWords => matchesWords text d f
  | .matchPrefix => matchesPrefixes text d f
  | op => evalOrdering (compare d f) op

/-- A text against a number: by the number that the text spells, if it spells one. The number is the
right side whichever side it stands on. -/
def compareParsed (parsed : Option Ordering) (a b : Value) (op : Operator) : Bool :=
  match parsed with
  | some ord => evalOrdering ord op
  | none =>
    match op with
    | .eq => false
    | .ne => true
    | op => evalOrdering (a.cmp b) op

def compareMixed (a b : Value) (op : Operator) : Bool :=
  if a.typeWeight ≠ b.typeWeight then evalOrdering (compare a.typeWeight b.typeWeight) op
  else evalOrdering (a.cmp b) op

/-- The comparison of two single values. -/
def compareScalars (a b : Value) (op : Operator) : Bool :=
  if op = .eq ∧ a.eq b then true
  else match a,b with
    | .string s,.int i | .int i,.string s =>
      compareParsed ((parseInt64 s).map fun n => compare n.toInt i.toInt) a b op
    | .string s,.float f | .float f,.string s => compareParsed ((text.parseFloat s).map fun g => g.totalCmp f) a b op
    | .string d,.string f => compareStrings text d f op
    | .int a,.int b => evalOrdering (compare a.toInt b.toInt) op
    | .timestamp a,.timestamp b => evalOrdering (compare a.toInt b.toInt) op
    | .binary a,.binary b => evalOrdering (compareBytes a b) op
    | .bool a,.bool b => evalOrdering (compare a.toNat b.toNat) op
    | .bool a,.int b => evalOrdering (compare (a.toNat : ℤ) b.toInt) op
    | .int a,.bool b => evalOrdering (compare a.toInt (b.toNat : ℤ)) op
    | .bool a,.string s => ((parseBoolLike text s).map fun b => evalOrdering (compare a.toNat b.toNat) op).getD false
    | .string s,.bool b => ((parseBoolLike text s).map fun a => evalOrdering (compare a.toNat b.toNat) op).getD false
    | .float a,.float b => ((a.partialCmp b).map fun ord => evalOrdering ord op).getD false
    | .null,.null => evalOrdering .eq op
    | .int a,.float b => evalOrdering ((F64.ofInt64 a).totalCmp b) op
    | .float a,.int b => evalOrdering (a.totalCmp (F64.ofInt64 b)) op
    | .reference c1 i1,.reference c2 i2 => evalOrdering ((compare c1 c2).then (compare i1 i2)) op
    | a,b => compareMixed a b op

def compareValues (a : Value) (op : Operator) (b : Value) : Bool :=
  match op with
  | .within =>
    match b with
    | .array allowed => allowed.any fun item => compareScalars text a item .eq
    | _ => false
  | .notIn =>
    match b with
    | .array allowed => !allowed.any fun item => compareScalars text a item .eq
    | _ => true
  | .arrayContains =>
    match a with
    | .array items => items.any fun item => item.eq b
    | _ => false
  | .arrayContainsAny =>
    match a,b with
    | .array items,.array queryItems => queryItems.any fun q => items.any fun item => item.eq q
    | _,_ => false
  | .arrayAllEq =>
    match a with
    | .array items => !items.isEmpty && items.all fun item => item.eq b
    | _ => false
  | op => compareScalars text a b op

end compare

end HakoDB
