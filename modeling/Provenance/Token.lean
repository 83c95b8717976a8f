import Provenance.Text.Hex

/-!
# Metadata tokens

A token names a row of a metadata table: the table in its highest byte, the row in the other
three. Only the tables that instructions can refer to have a name here.
-/

namespace Provenance

/-- A metadata token. -/
structure Token where
  /-- The token as one number. -/
  value : UInt32
  deriving DecidableEq

namespace Token

/-- A metadata table that instructions refer to. -/
inductive Table
  | typeRef | typeDef | field | methodDef | memberRef | standAloneSig | typeSpec | methodSpec
  | userString
  deriving DecidableEq

namespace Table

/-- Every named table. -/
def all : List Table :=
  [typeRef, typeDef, field, methodDef, memberRef, standAloneSig, typeSpec, methodSpec, userString]

/-- The number of a table. -/
def code : Table → UInt8
  | typeRef => 0x01
  | typeDef => 0x02
  | field => 0x04
  | methodDef => 0x06
  | memberRef => 0x0A
  | standAloneSig => 0x11
  | typeSpec => 0x1B
  | methodSpec => 0x2B
  | userString => 0x70

/-- The name of a table. -/
def name : Table → String
  | typeRef => "TypeRef"
  | typeDef => "TypeDef"
  | field => "Field"
  | methodDef => "MethodDef"
  | memberRef => "MemberRef"
  | standAloneSig => "StandAloneSig"
  | typeSpec => "TypeSpec"
  | methodSpec => "MethodSpec"
  | userString => "UserString"

/-- The named table with this number. -/
def ofCode? (code : UInt8) : Option Table :=
  all.find? (·.code = code)

end Table

/-- The token of a row. Rows have 24 bits; higher ones are cut off. -/
def ofParts (table : Table) (row : UInt32) : Token :=
  ⟨(table.code.toUInt32 <<< 24) ||| (row &&& 0x00FFFFFF)⟩

/-- The number of the table a token refers to. -/
def tableCode (t : Token) : UInt8 :=
  (t.value >>> 24).toUInt8

/-- The table a token refers to, if it is a named one. -/
def table? (t : Token) : Option Table :=
  Table.ofCode? t.tableCode

/-- The row a token refers to. -/
def row (t : Token) : UInt32 :=
  t.value &&& 0x00FFFFFF

/-- The token that refers to nothing. -/
def isNull (t : Token) : Bool :=
  t.value = 0

/-- Whether a token names a string literal. -/
def isUserString (t : Token) : Bool :=
  t.table? = some .userString

/-- Whether a token names a method. -/
def isMethod (t : Token) : Bool :=
  match t.table? with
  | some .methodDef | some .memberRef | some .methodSpec => true
  | _ => false

/-- The token as eight hexadecimal digits. -/
def text (t : Token) : String :=
  "0x" ++ Text.hex 8 t.value.toNat

/-- The token with its table and row spelled out. -/
def inspect (t : Token) : String :=
  let table :=
    match t.table? with
    | some table => table.name
    | none => "table: 0x" ++ Text.hex 2 t.tableCode.toNat
  s!"Token({t.text}, {table}, row: {t.row})"

end Token

end Provenance
