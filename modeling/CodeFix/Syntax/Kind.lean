/-!
# Grammatical kinds

The kinds of C# nodes and tokens that the fixes look at, and the three families of declarations that
the fixes tell apart: those that introduce a named type, those among them whose type is a value
type, and those whose grammar rule begins with attribute lists.
-/

namespace CodeFix.Kind

def compilationUnit : String := "compilation_unit"
def usingDirective : String := "using_directive"
def namespaceDeclaration : String := "namespace_declaration"
def fileScopedNamespace : String := "file_scoped_namespace_declaration"
def namespaceKeyword : String := "namespace"

def classDeclaration : String := "class_declaration"
def structDeclaration : String := "struct_declaration"
def recordDeclaration : String := "record_declaration"
def recordStructDeclaration : String := "record_struct_declaration"
def interfaceDeclaration : String := "interface_declaration"
def enumDeclaration : String := "enum_declaration"
def delegateDeclaration : String := "delegate_declaration"

def fieldDeclaration : String := "field_declaration"
def eventFieldDeclaration : String := "event_field_declaration"
def propertyDeclaration : String := "property_declaration"
def methodDeclaration : String := "method_declaration"
def variableDeclaration : String := "variable_declaration"
def variableDeclarator : String := "variable_declarator"

def attributeList : String := "attribute_list"
def attributeItem : String := "attribute"
def qualifiedName : String := "qualified_name"
def identifier : String := "identifier"

/-- The zero-width token that carries the trivia behind the last token of a file. -/
def endOfFile : String := "end_of_file"

/-- Declarations that introduce a named type. -/
def typeDeclarations : List String :=
  [classDeclaration, structDeclaration, recordDeclaration, recordStructDeclaration,
    interfaceDeclaration, enumDeclaration]

/-- Type declarations whose type is a value type, so that a question mark behind its name makes
another type of it. -/
def valueTypeDeclarations : List String :=
  [structDeclaration, recordStructDeclaration, enumDeclaration]

/-- Declarations that can carry attribute lists. -/
def attributableDeclarations : List String :=
  typeDeclarations ++
    [delegateDeclaration, fieldDeclaration, eventFieldDeclaration, propertyDeclaration,
      methodDeclaration]

/-- The kind introduces a named type. -/
def isTypeDeclaration (kind : String) : Bool := typeDeclarations.contains kind

def isValueTypeDeclaration (kind : String) : Bool := valueTypeDeclarations.contains kind

def isAttributable (kind : String) : Bool := attributableDeclarations.contains kind

end CodeFix.Kind
