import CodeFix.Text.Basic

/-!
# Attributes

An attribute is applied by naming its class, without arguments. The class is described by its
namespace and its name. In source the conventional suffix `Attribute` of the name is left out, and
the namespace is written only in the qualified spelling.
-/

namespace CodeFix

/-- The suffix that names of attribute classes end with by convention. -/
def attributeSuffix : String := "Attribute"

/-- The attributes that the fixes add. -/
inductive WellKnownAttribute where
  | nonSerialized
  | serializable
deriving DecidableEq, Repr

/-- Full name of the attribute's class. -/
def WellKnownAttribute.metadataName : WellKnownAttribute → String
  | nonSerialized => "System.NonSerializedAttribute"
  | serializable => "System.SerializableAttribute"

structure AttributeClass where
  space : String
  name : String
deriving DecidableEq, Repr

namespace AttributeClass

/-- The class with a full name; the namespace ends at the last dot. -/
def ofMetadataName (fullName : String) : AttributeClass :=
  match Text.splitLast? '.' fullName with
  | some (space, name) => ⟨space, name⟩
  | none => ⟨"", fullName⟩

def wellKnown (a : WellKnownAttribute) : AttributeClass := ofMetadataName a.metadataName

/-- The name without the conventional suffix, unless nothing would be left. -/
def shortName (c : AttributeClass) : String :=
  match attributeSuffix.toList.isSuffixOf? c.name.toList with
  | some (d :: ds) => String.ofList (d :: ds)
  | _ => c.name

/-- The short name behind the namespace, if there is one. -/
def qualifiedShortName (c : AttributeClass) : String :=
  if c.space.isEmpty then c.shortName else c.space ++ "." ++ c.shortName

end AttributeClass

/-- How an attribute is named in source. -/
inductive NameStyle where
  | simple
  | qualified
deriving DecidableEq, Repr

/-- The name of an attribute class as it is written in source. -/
def NameStyle.render : NameStyle → AttributeClass → String
  | simple, c => c.shortName
  | qualified, c => c.qualifiedShortName

/-- Which spelling a user wants. -/
inductive NameStylePreference where
  /-- The simple name where its namespace is in scope, the qualified one elsewhere. -/
  | auto
  | simple
  | qualified
deriving DecidableEq, Repr

namespace NameStylePreference

def name : NameStylePreference → String
  | auto => "auto"
  | simple => "simple"
  | qualified => "qualified"

/-- Reads a preference by its exact name. -/
def ofName? : String → Option NameStylePreference
  | "auto" => some auto
  | "simple" => some simple
  | "qualified" => some qualified
  | _ => none

/-- Reads a preference in any letter case. Lower-casing ASCII letters is enough: no other character
has a lower-case form that occurs in one of the names. -/
def parse (s : String) : Except String NameStylePreference :=
  match ofName? (s.map Char.toLower) with
  | some p => .ok p
  | none => .error s!"Unknown attribute name style: '{s}'. Valid: auto, simple, qualified"

end NameStylePreference

end CodeFix
