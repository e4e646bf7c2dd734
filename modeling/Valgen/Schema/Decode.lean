import Valgen.Schema.Node
/-!
# Schema.Decode — JSON values as schemas

`Node.ofJson?` reads a JSON value as a schema, or refuses it.  A value is read in every way a keyword can ask for: as a
schema, as a list of schemas, as a map of schemas (`Reading`); the readings of a value are put together from those of
its parts, so that one walk over the value serves all keywords.

- Members whose key is no keyword are ignored, whatever they hold.
- A keyword that is given twice in one object is refused.
- `null` stands for an absent keyword, except for `const` and `default`, where it is a value, and `required`, where it
  is refused.
- An array with one item for each keyword, in the order of `Keyword.all`, is read as an object with these keywords.
-/
namespace Valgen
namespace Schema

inductive Keyword where
  | type
  | properties
  | required
  | additionalProperties
  | items
  | prefixItems
  | minItems
  | maxItems
  | enum
  | const
  | allOf
  | anyOf
  | oneOf
  | not
  | ifSchema
  | thenSchema
  | elseSchema
  | ref
  | defs
  | definitions
  | format
  | pattern
  | minLength
  | maxLength
  | contentEncoding
  | multipleOf
  | minimum
  | maximum
  | exclusiveMinimum
  | exclusiveMaximum
  | description
  | default
  | readOnly
  | nullable
  | errorMessage
deriving DecidableEq, Repr

namespace Keyword

def name : Keyword → String
  | .type => "type"
  | .properties => "properties"
  | .required => "required"
  | .additionalProperties => "additionalProperties"
  | .items => "items"
  | .prefixItems => "prefixItems"
  | .minItems => "minItems"
  | .maxItems => "maxItems"
  | .enum => "enum"
  | .const => "const"
  | .allOf => "allOf"
  | .anyOf => "anyOf"
  | .oneOf => "oneOf"
  | .not => "not"
  | .ifSchema => "if"
  | .thenSchema => "then"
  | .elseSchema => "else"
  | .ref => "$ref"
  | .defs => "$defs"
  | .definitions => "definitions"
  | .format => "format"
  | .pattern => "pattern"
  | .minLength => "minLength"
  | .maxLength => "maxLength"
  | .contentEncoding => "contentEncoding"
  | .multipleOf => "multipleOf"
  | .minimum => "minimum"
  | .maximum => "maximum"
  | .exclusiveMinimum => "exclusiveMinimum"
  | .exclusiveMaximum => "exclusiveMaximum"
  | .description => "description"
  | .default => "default"
  | .readOnly => "readOnly"
  | .nullable => "nullable"
  | .errorMessage => "errorMessage"

def all : List Keyword :=
  [.type, .properties, .required, .additionalProperties, .items, .prefixItems, .minItems, .maxItems, .enum, .const,
   .allOf, .anyOf, .oneOf, .not, .ifSchema, .thenSchema, .elseSchema, .ref, .defs, .definitions, .format, .pattern,
   .minLength, .maxLength, .contentEncoding, .multipleOf, .minimum, .maximum, .exclusiveMinimum, .exclusiveMaximum,
   .description, .default, .readOnly, .nullable, .errorMessage]

def ofName? (s : String) : Option Keyword := all.find? (fun k => k.name == s)

end Keyword

/-- **The ways in which a JSON value can be read.** -/
structure Reading where
  /-- The value itself. -/
  raw : Json
  /-- As a schema. -/
  node : Option Node
  /-- As a list of schemas. -/
  nodes : Option (List Node)
  /-- As a map of schemas. -/
  nodeMap : Option (Assoc Node)

namespace Reading

/-- **A part that may be null**, which then counts as absent. -/
def orNull {α : Type} (read : Reading → Option α) (r : Reading) : Option (Option α) :=
  match r.raw with
  | .null => some none
  | _ => (read r).map some

def typeSet? (r : Reading) : Option TypeSet :=
  match r.raw with
  | .string name => some (.single name)
  | _ => r.raw.strings?.map .multiple

/-- **The value of `items`**: a schema if it can be read as one, else a list. -/
def items? (r : Reading) : Option (Items Node) :=
  match r.node with
  | some node => some (.single node)
  | none => r.nodes.map .tuple

def bound? (r : Reading) : Option ExclusiveBound :=
  match r.raw with
  | .bool on => some (.flag on)
  | .number bound => some (.value bound)
  | _ => none

def messages? (r : Reading) : Option Messages :=
  match r.raw with
  | .string text => some (.all text)
  | .object members =>
    (members.mapM (fun (m : String × Json) => m.2.string?.map (fun text => (m.1, text)))).map
      (fun entries => .byKeyword (Assoc.ofEntries entries))
  | _ => none

/-- **The keywords with one keyword taken over**, if its value has the right shape. -/
def set? (k : Keywords Node) (keyword : Keyword) (r : Reading) : Option (Keywords Node) :=
  match keyword with
  | .type => (orNull typeSet? r).map (fun v => { k with type := v })
  | .properties => (orNull nodeMap r).map (fun v => { k with properties := v })
  | .required => r.raw.strings?.map (fun v => { k with required := v })
  | .additionalProperties => (orNull node r).map (fun v => { k with additionalProperties := v })
  | .items => (orNull items? r).map (fun v => { k with items := v })
  | .prefixItems => (orNull nodes r).map (fun v => { k with prefixItems := v })
  | .minItems => (orNull (fun r => r.raw.nat?) r).map (fun v => { k with minItems := v })
  | .maxItems => (orNull (fun r => r.raw.nat?) r).map (fun v => { k with maxItems := v })
  | .enum => (orNull (fun r => r.raw.array?) r).map (fun v => { k with enum := v.map (List.map Json.mergeRepeats) })
  | .const => some { k with const := some r.raw.mergeRepeats }
  | .allOf => (orNull nodes r).map (fun v => { k with allOf := v })
  | .anyOf => (orNull nodes r).map (fun v => { k with anyOf := v })
  | .oneOf => (orNull nodes r).map (fun v => { k with oneOf := v })
  | .not => (orNull node r).map (fun v => { k with not := v })
  | .ifSchema => (orNull node r).map (fun v => { k with ifSchema := v })
  | .thenSchema => (orNull node r).map (fun v => { k with thenSchema := v })
  | .elseSchema => (orNull node r).map (fun v => { k with elseSchema := v })
  | .ref => (orNull (fun r => r.raw.string?) r).map (fun v => { k with ref := v })
  | .defs => (orNull nodeMap r).map (fun v => { k with defs := v })
  | .definitions => (orNull nodeMap r).map (fun v => { k with definitions := v })
  | .format => (orNull (fun r => r.raw.string?) r).map (fun v => { k with format := v })
  | .pattern => (orNull (fun r => r.raw.string?) r).map (fun v => { k with pattern := v })
  | .minLength => (orNull (fun r => r.raw.nat?) r).map (fun v => { k with minLength := v })
  | .maxLength => (orNull (fun r => r.raw.nat?) r).map (fun v => { k with maxLength := v })
  | .contentEncoding => (orNull (fun r => r.raw.string?) r).map (fun v => { k with contentEncoding := v })
  | .multipleOf => (orNull (fun r => r.raw.number?) r).map (fun v => { k with multipleOf := v })
  | .minimum => (orNull (fun r => r.raw.number?) r).map (fun v => { k with minimum := v })
  | .maximum => (orNull (fun r => r.raw.number?) r).map (fun v => { k with maximum := v })
  | .exclusiveMinimum => (orNull bound? r).map (fun v => { k with exclusiveMinimum := v })
  | .exclusiveMaximum => (orNull bound? r).map (fun v => { k with exclusiveMaximum := v })
  | .description => (orNull (fun r => r.raw.string?) r).map (fun v => { k with description := v })
  | .default => some { k with default := some r.raw.mergeRepeats }
  | .readOnly => (orNull (fun r => r.raw.bool?) r).map (fun v => { k with readOnly := v })
  | .nullable => (orNull (fun r => r.raw.bool?) r).map (fun v => { k with nullable := v })
  | .errorMessage => (orNull messages? r).map (fun v => { k with errorMessage := v })

/-- **The schema of keywords with their values**; a keyword given twice is refused. -/
def ofKeywords? (entries : List (Keyword × Reading)) : Option Node :=
  if (entries.map Prod.fst).Nodup then (entries.foldlM (fun k e => set? k e.1 e.2) {}).map .object else none

/-- **The entries of a list of members whose keys are keywords.** -/
def recognised (members : List (String × Reading)) : List (Keyword × Reading) :=
  members.filterMap (fun m => (Keyword.ofName? m.1).map (fun keyword => (keyword, m.2)))

def ofMembers? (members : List (String × Reading)) : Option Node := ofKeywords? (recognised members)

/-- **The schema of an array** that gives every keyword its value by its place. -/
def ofPlaces? (items : List Reading) : Option Node :=
  if items.length = Keyword.all.length then ofKeywords? (Keyword.all.zip items) else none

/-- **The map of schemas of an object**: every value is a schema, and of a repeated key the last one counts. -/
def mapOfMembers? (members : List (String × Reading)) : Option (Assoc Node) :=
  (members.mapM (fun (m : String × Reading) => m.2.node.map (fun node => (m.1, node)))).map Assoc.ofEntries

end Reading

mutual

def readingOf : Json → Reading
  | .null => ⟨.null, none, none, none⟩
  | .bool value => ⟨.bool value, some (.bool value), none, none⟩
  | .number value => ⟨.number value, none, none, none⟩
  | .string value => ⟨.string value, none, none, none⟩
  | .array items =>
    let rs := readingsOf items
    ⟨.array items, Reading.ofPlaces? rs, rs.mapM Reading.node, none⟩
  | .object members =>
    let rs := memberReadingsOf members
    ⟨.object members, Reading.ofMembers? rs, none, Reading.mapOfMembers? rs⟩

def readingsOf : List Json → List Reading
  | [] => []
  | item :: rest => readingOf item :: readingsOf rest

def memberReadingsOf : List (String × Json) → List (String × Reading)
  | [] => []
  | (key, value) :: rest => (key, readingOf value) :: memberReadingsOf rest

end

theorem readingsOf_eq_map : ∀ items : List Json, readingsOf items = items.map readingOf
  | [] => rfl
  | _ :: rest => by rw [readingsOf, readingsOf_eq_map rest, List.map_cons]

theorem memberReadingsOf_eq_map :
    ∀ members : List (String × Json), memberReadingsOf members = members.map (fun m => (m.1, readingOf m.2))
  | [] => rfl
  | (_, _) :: rest => by rw [memberReadingsOf, memberReadingsOf_eq_map rest, List.map_cons]

def Node.ofJson? (value : Json) : Option Node := (readingOf value).node

end Schema
end Valgen
