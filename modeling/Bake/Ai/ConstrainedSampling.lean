import Bake.Ai.Stream

/-!
# Strict tool schemas

`constrained_sampling.rs`: the strict subset of a tool's parameter schema. Optional
members become required and nullable, and objects are closed. A keyword the subset has no
counterpart for refuses the schema, as does a union of objects or arrays.

A schema node is rewritten from the outside in, and every schema below it is a smaller
value: that is why the recursion ends.
-/

namespace Bake.Ai

open Bake.Json
open OrdMap (get?)

abbrev UnsupportedKeywordCheck := String → Value → Bool

def unsupportedStrictSchemaKeys : List String :=
 ["$ref", "$defs", "definitions", "allOf", "oneOf", "patternProperties", "dependentSchemas",
  "dependencies", "unevaluatedProperties", "propertyNames", "contains", "prefixItems", "not",
  "if", "then", "else"]

variable {key : String} {object : JsonObject}

theorem sizeOf_member {value : Value} (h : get? object key = some value) :
 sizeOf value < sizeOf (Value.object object) := by
 have hm := List.sizeOf_lt_of_mem (OrdMap.mem_of_get? h)
 simp only [Prod.mk.sizeOf_spec] at hm
 simp only [Value.object.sizeOf_spec]
 omega

theorem sizeOf_items {items : List Value} (h : get? object key = some (.array items)) :
 sizeOf items < sizeOf (Value.object object) := by
 have hm := sizeOf_member h
 simp only [Value.array.sizeOf_spec] at hm
 omega

theorem sizeOf_members {members : JsonObject} (h : get? object key = some (.object members)) :
 sizeOf members < sizeOf (Value.object object) := by
 have hm := sizeOf_member h
 simp only [Value.object.sizeOf_spec] at hm ⊢
 omega

/-! ## What a node is -/

/-- The names of a `type` member: one, or several. -/
def kindsOf : Option Value → List String
 | some (.string kind) => [kind]
 | some (.array kinds) => kinds.filterMap Value.asStr
 | _ => []

def isStructured : Value → Bool
 | .object object =>
  let types := kindsOf (get? object "type")
  types.contains "object" || types.contains "array"
   || (get? object "properties").isSome || (get? object "items").isSome
 | _ => false

/-- The `type` member names `null`. -/
def namesNull : Option Value → Bool
 | some (.string kind) => kind = "null"
 | some (.array kinds) => kinds.any fun kind => kind.beq (.string "null")
 | _ => false

/-- The `const` member or one of the `enum` members is `null`. -/
def listsNull (object : JsonObject) : Bool :=
 (match get? object "const" with
  | some value => value.isNull
  | none => false)
 || (match get? object "enum" with
  | some (.array values) => values.any Value.isNull
  | _ => false)

mutual
def allowsNull : Value → Bool
 | .object object =>
  if namesNull (get? object "type") then true
  else if listsNull object then true
  else match _h : get? object "anyOf" with
   | some (.array variants) => anyAllowsNull variants
   | _ => false
 | _ => false
termination_by schema => sizeOf schema
decreasing_by exact sizeOf_items _h

def anyAllowsNull : List Value → Bool
 | [] => false
 | variant :: variants => allowsNull variant || anyAllowsNull variants
termination_by variants => sizeOf variants
end

/-! ## The rewriting -/

/-- The schema of an optional member that does not allow `null`. -/
def nullable (schema : Value) : Value :=
 .object [("anyOf", .array [schema, .object [("type", .string "null")]])]

def requiredNames : Option Value → Except String (List String)
 | none => .ok []
 | some (.array keys) =>
  if keys.all fun key => key.asStr.isSome then .ok (keys.filterMap Value.asStr)
  else .error "object required must be a string array"
 | some _ => .error "object required must be a string array"

/-- The names of the members a node declares. -/
def propertyNames (object : JsonObject) : List String :=
 match get? object "properties" with
 | some (.object properties) => OrdMap.keys properties
 | _ => []

/-- A node without type `object` needs no more; one with it must be closable. The names it
requires, when it is an object. -/
def objectNode (object : JsonObject) : Except String (Option (List String)) :=
 let isObject := strMember object "type" = some "object"
 if (get? object "properties").isSome && !isObject then
  .error "properties require type object"
 else if !isObject then .ok none
 else if (match get? object "additionalProperties" with
  | none | some (.bool false) => false
  | some _ => true) then
  .error "schema-valued or true additionalProperties is unsupported"
 else if (match get? object "properties" with
  | none | some (.object _) => false
  | some _ => true) then
  .error "object properties must be a schema map"
 else do
  let required ← requiredNames (get? object "required")
  if required.any fun key => !(propertyNames object).contains key then
   throw "required contains an unknown property"
  else pure (some required)

section Strict

variable (codec : Codec) (check : Option UnsupportedKeywordCheck)

/-- The keywords the strict subset, or the provider's, has no counterpart for. -/
def refusedKeyword (object : JsonObject) : Except String Unit :=
 match unsupportedStrictSchemaKeys.find? fun key => (get? object key).isSome with
 | some key => .error (key ++ " schemas are unsupported")
 | none =>
  match check with
  | none => .ok ()
  | some check =>
   match object.find? fun member => check member.1 member.2 with
   | some member => .error (member.1 ++ ": " ++ codec.toText member.2 ++ " is unsupported")
   | none => .ok ()

mutual
def makeNodeStrict : Value → Except String Value
 | .object object => do
  refusedKeyword codec check object
  let object' ← (match _h : get? object "anyOf" with
   | none => pure object
   | some (.array (variant :: variants)) => do
    let variants ← strictVariants (variant :: variants)
    pure (OrdMap.insert object "anyOf" (.array variants))
   | some _ => throw "anyOf must contain at least one schema")
  let object' ← (match _h : get? object "items" with
   | none => pure object'
   | some (.array _) => throw "tuple schemas are unsupported"
   | some items => do
    let items ← makeNodeStrict items
    pure (OrdMap.insert object' "items" items))
  match ← objectNode object with
  | none => pure (.object object')
  | some required => do
   let object' ← (match _h : get? object "properties" with
    | some (.object properties) => do
     let properties ← strictProperties required properties
     pure (OrdMap.insert object' "properties" (.object properties))
    | _ => pure object')
   let names := (propertyNames object).map Value.string
   let object' := OrdMap.insert object' "required" (.array names)
   pure (.object (OrdMap.insert object' "additionalProperties" (.bool false)))
 | _ => throw "boolean schemas are unsupported"
termination_by schema => sizeOf schema
decreasing_by
 · exact sizeOf_items _h
 · exact sizeOf_member _h
 · exact sizeOf_members _h

def strictVariants : List Value → Except String (List Value)
 | [] => pure []
 | variant :: variants => do
  if isStructured variant then throw "object and array unions are unsupported"
  let variant ← makeNodeStrict variant
  let variants ← strictVariants variants
  pure (variant :: variants)
termination_by variants => sizeOf variants

/-- The declared members of an object; an optional one must allow `null`. -/
def strictProperties (required : List String) : JsonObject → Except String JsonObject
 | [] => pure []
 | (key, property) :: properties => do
  let property ← makeNodeStrict property
  let property :=
   if !required.contains key && !allowsNull property then nullable property else property
  let properties ← strictProperties required properties
  pure ((key, property) :: properties)
termination_by properties => sizeOf properties
end

/-- `make_strict_json_schema`: the strict subset of a tool schema, or why there is none. -/
def makeStrictJsonSchema (schema : Value) : Except String Value :=
 match schema with
 | .object _ => do
  let strict ← makeNodeStrict codec check schema
  if typeOf (some strict) = some "object" then pure strict
  else throw "root schema must have type object"
 | _ => throw "root schema must have type object"

/-- `resolve_json_schema_strict_sampling`: whether to send a tool in strict mode. -/
def resolveJsonSchemaStrictSampling (tool : Tool) (supportsStrictMode : Bool) :
 Except String (Option Bool) :=
 match tool.constrainedSampling with
 | some (.jsonSchema strict) =>
  if supportsStrictMode then
   match makeStrictJsonSchema codec check tool.parameters with
   | .ok _ => .ok (some true)
   | .error reason =>
    if strict = .require then
     .error ("Tool \"" ++ tool.name
      ++ "\" requires JSON-schema constrained sampling, but " ++ reason ++ ".")
    else .ok none
  else if strict = .require then
   .error ("Tool \"" ++ tool.name
    ++ "\" requires JSON-schema constrained sampling, but strict tools are unsupported.")
  else .ok none
 | _ => .ok none

end Strict

/-- `get_json_schema_tool_parameters`: the parameters to send. -/
def getJsonSchemaToolParameters (codec : Codec) (tool : Tool) (strict : Option Bool) :
 Except String Value :=
 if strict = some true then makeStrictJsonSchema codec none tool.parameters else .ok tool.parameters

end Bake.Ai
