/-!
Access flags of methods: the keywords of the method header and the bits of their encoding.
-/

namespace Dalvik

/-- A property that a method header can declare. -/
inductive AccessFlag where
  | pub
  | priv
  | prot
  | static
  | final
  | synchronized
  | native
  | abstract
  | constructor
  deriving DecidableEq, Repr

namespace AccessFlag

/-- Every flag, in the order in which headers are written. -/
def all : List AccessFlag :=
  [pub, priv, prot, static, final, synchronized, native, abstract, constructor]

/-- The word that declares the flag. -/
def keyword : AccessFlag → String
  | pub => "public"
  | priv => "private"
  | prot => "protected"
  | static => "static"
  | final => "final"
  | synchronized => "synchronized"
  | native => "native"
  | abstract => "abstract"
  | constructor => "constructor"

/-- The bit that encodes the flag. -/
def bit : AccessFlag → Nat
  | pub => 0x1
  | priv => 0x2
  | prot => 0x4
  | static => 0x8
  | final => 0x10
  | synchronized => 0x20
  | native => 0x100
  | abstract => 0x400
  | constructor => 0x10000

/-- The flag that a word declares. -/
def ofKeyword? (word : String) : Option AccessFlag :=
  all.find? fun flag => flag.keyword = word

theorem mem_all (flag : AccessFlag) : flag ∈ all := by
  cases flag <;> decide

theorem ofKeyword?_keyword (flag : AccessFlag) : ofKeyword? flag.keyword = some flag := by
  cases flag <;> decide +kernel

end AccessFlag

/-- The flags of a method. -/
structure AccessFlags where
  pub : Bool := false
  priv : Bool := false
  prot : Bool := false
  static : Bool := false
  final : Bool := false
  synchronized : Bool := false
  native : Bool := false
  abstract : Bool := false
  constructor : Bool := false
  deriving DecidableEq, Repr

namespace AccessFlags

/-- No flag. -/
def empty : AccessFlags := {}

/-- Whether a flag is set. -/
def contains (flags : AccessFlags) : AccessFlag → Bool
  | .pub => flags.pub
  | .priv => flags.priv
  | .prot => flags.prot
  | .static => flags.static
  | .final => flags.final
  | .synchronized => flags.synchronized
  | .native => flags.native
  | .abstract => flags.abstract
  | .constructor => flags.constructor

/-- The flags with one more set. -/
def insert (flags : AccessFlags) : AccessFlag → AccessFlags
  | .pub => { flags with pub := true }
  | .priv => { flags with priv := true }
  | .prot => { flags with prot := true }
  | .static => { flags with static := true }
  | .final => { flags with final := true }
  | .synchronized => { flags with synchronized := true }
  | .native => { flags with native := true }
  | .abstract => { flags with abstract := true }
  | .constructor => { flags with constructor := true }

/-- The set of some flags. -/
def ofList (fs : List AccessFlag) : AccessFlags := fs.foldl insert empty

/-- The flags that are set, in the order in which headers are written. -/
def toList (flags : AccessFlags) : List AccessFlag := AccessFlag.all.filter flags.contains

/-- The encoding of the flags as one number. -/
def bits (flags : AccessFlags) : Nat := flags.toList.foldr (fun flag n => flag.bit + n) 0

/-- The words that declare the flags. -/
def keywords (flags : AccessFlags) : List String := flags.toList.map AccessFlag.keyword

theorem contains_insert (flags : AccessFlags) (a b : AccessFlag) :
    (flags.insert a).contains b = (decide (a = b) || flags.contains b) := by
  cases a <;> cases b <;> simp [insert, contains]

theorem mem_toList (flags : AccessFlags) (a : AccessFlag) :
    a ∈ flags.toList ↔ flags.contains a = true := by
  simp [toList, AccessFlag.mem_all]

end AccessFlags

end Dalvik
