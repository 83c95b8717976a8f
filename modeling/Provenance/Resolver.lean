import Provenance.Token

/-!
# Names and signatures of tokens

What a token stands for is not in the method body. A `Resolver` answers for tokens: a name or
string for text, and the signature of a method for the effect of calling it. A `SymbolTable` is a
resolver given by finitely many registrations, of which the latest for a token counts.
-/

namespace Provenance

/-- What calling a method takes from the stack and leaves there. -/
structure Signature where
  /-- Number of parameters, without the instance. -/
  paramCount : UInt64 := 0
  isStatic : Bool := false
  isConstructor : Bool := false
  returnsVoid : Bool := false
  deriving DecidableEq

namespace Signature

/-- An instance method that returns a value. -/
def ofInstance (paramCount : UInt64) : Signature :=
  ⟨paramCount, false, false, false⟩

/-- A static method that returns a value. -/
def ofStatic (paramCount : UInt64) : Signature :=
  ⟨paramCount, true, false, false⟩

/-- A constructor. -/
def ofConstructor (paramCount : UInt64) : Signature :=
  ⟨paramCount, false, true, true⟩

/-- The same method without a return value. -/
def returningVoid (s : Signature) : Signature :=
  { s with returnsVoid := true }

/-- Whether a call takes the instance from the stack. -/
def popsInstance (s : Signature) : Bool :=
  !s.isStatic && !s.isConstructor

end Signature

/-- What is known about tokens outside the method body. -/
structure Resolver where
  /-- The name or the string that a token stands for. -/
  name? : Token → Option String
  /-- The signature of the method that a token stands for. -/
  signature? : Token → Option Signature

/-- The resolver that knows no token. -/
def Resolver.unknown : Resolver :=
  ⟨fun _ => none, fun _ => none⟩

/-- Names and signatures by token, each token at most once. -/
structure SymbolTable where
  names : List (Token × String) := []
  signatures : List (Token × Signature) := []
  deriving DecidableEq

namespace SymbolTable

/-- Registers a value for a token in place of any earlier one. -/
def assign {α : Type} (entries : List (Token × α)) (token : Token) (value : α) :
    List (Token × α) :=
  (token, value) :: entries.filter (·.1 ≠ token)

/-- Registers the name, or the string, that a token stands for. -/
def addName (s : SymbolTable) (token : Token) (name : String) : SymbolTable :=
  { s with names := assign s.names token name }

/-- Registers a method's name and signature. -/
def addMethod (s : SymbolTable) (token : Token) (name : String) (signature : Signature) :
    SymbolTable :=
  { s.addName token name with signatures := assign s.signatures token signature }

/-- Number of tokens with a name. -/
def size (s : SymbolTable) : Nat :=
  s.names.length

/-- Whether nothing is registered. -/
def isEmpty (s : SymbolTable) : Bool :=
  s.names.isEmpty && s.signatures.isEmpty

/-- The resolver that answers from the table. -/
def toResolver (s : SymbolTable) : Resolver where
  name? token := (s.names.find? (·.1 = token)).map (·.2)
  signature? token := (s.signatures.find? (·.1 = token)).map (·.2)

end SymbolTable

end Provenance
