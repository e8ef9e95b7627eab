import Pillar.Core

/-!
# Manifests and their schemas

`pillar-manifest`: a manifest is a body of a kind, with a name, labels and a flat map of typed
fields.
-/

namespace Pillar.Manifest

open Std (ExtTreeMap ExtTreeSet)

inductive FieldType where
  | string
  | integer
  | boolean
  deriving DecidableEq

inductive Value where
  | string (s : Str)
  | integer (i : Int64)
  | boolean (b : Bool)
  deriving DecidableEq

def Value.ty : Value → FieldType
  | .string _ => .string
  | .integer _ => .integer
  | .boolean _ => .boolean

/-- What is said about a manifest. -/
structure Metadata where
  name : Str
  labels : ExtTreeMap Str Str
  deriving DecidableEq

structure Crd where
  apiVersion : Str
  kind : Str
  metadata : Metadata
  spec : ExtTreeMap Str Value
  deriving DecidableEq

/-- The object that a manifest is about. -/
structure ManifestKey where
  apiVersion : Str
  kind : Str
  name : Str
  deriving DecidableEq

def ManifestKey.of (crd : Crd) : ManifestKey := ⟨crd.apiVersion, crd.kind, crd.metadata.name⟩

def kindText (apiVersion kind : Str) : String := apiVersion.val ++ "/" ++ kind.val

/-! ## Schemas -/

inductive SchemaError where
  | unregisteredKind (kind : String)
  | kindMismatch (expected found : String)
  | missingRequired (field : Str)
  | unknownField (field : Str)
  | typeMismatch (field : Str) (expected found : FieldType)
  deriving DecidableEq

structure Schema where
  apiVersion : Str
  kind : Str
  properties : ExtTreeMap Str FieldType
  required : ExtTreeSet Str

namespace Schema

def fieldError (s : Schema) (field : Str) (value : Value) : Option SchemaError :=
  match s.properties[field]? with
  | none => some (.unknownField field)
  | some ty => if ty ≠ value.ty then some (.typeMismatch field ty value.ty) else none

def validate (s : Schema) (crd : Crd) : Except SchemaError Unit :=
  if crd.apiVersion ≠ s.apiVersion ∨ crd.kind ≠ s.kind then
    .error (.kindMismatch (kindText s.apiVersion s.kind) (kindText crd.apiVersion crd.kind))
  else
    match s.required.toList.find? fun field => !crd.spec.contains field with
    | some field => .error (.missingRequired field)
    | none =>
      match crd.spec.toList.findSome? fun (field, value) => s.fieldError field value with
      | some e => .error e
      | none => .ok ()

end Schema

/-- The schemas that are registered. -/
structure SchemaRegistry where
  schemas : Str × Str → Option Schema

def SchemaRegistry.validate (r : SchemaRegistry) (crd : Crd) : Except SchemaError Unit :=
  match r.schemas (crd.apiVersion, crd.kind) with
  | none => .error (.unregisteredKind (kindText crd.apiVersion crd.kind))
  | some schema => schema.validate crd

end Pillar.Manifest
