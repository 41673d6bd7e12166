import Dalvik.Instruction.Operation

/-!
The instruction set. Instructions are generic in what a jump names: a label while a listing is being
read, an address afterwards.
-/

namespace Dalvik

/-- A place in a method, counted in units of sixteen bits. -/
abbrev Address := Nat

/-- An instruction that names the places it can jump to by a `τ`. The type of `newArray` is that of
the array. A `branch` without a second register compares with zero. A field access without an object
is one of a static field. -/
inductive Instruction (τ : Type) where
  | nop
  | const (dst : Register) (value : Literal)
  | move (dst src : Register)
  | moveResult (dst : Register)
  | moveException (dst : Register)
  | returnVoid
  | returnValue (src : Register)
  | throw (src : Register)
  | goto (target : τ)
  | branch (condition : Comparison) (lhs : Register) (rhs : Option Register) (target : τ)
  | switch (src : Register) (cases : List (Int32 × τ))
  | compare (kind : ThreeWay) (dst lhs rhs : Register)
  | unary (op : UnaryOp) (dst src : Register)
  | binary (op : BinaryOp) (type : NumberType) (dst lhs : Register) (rhs : Operand)
  | newInstance (dst : Register) (type : Descriptor)
  | checkCast (reg : Register) (type : Descriptor)
  | instanceOf (dst src : Register) (type : Descriptor)
  | newArray (dst size : Register) (type : Descriptor)
  | arrayLength (dst array : Register)
  | arrayGet (dst array index : Register)
  | arrayPut (src array index : Register)
  | fillArray (array : Register) (data : List Literal)
  | fieldGet (dst : Register) (object : Option Register) (field : FieldReference)
  | fieldPut (src : Register) (object : Option Register) (field : FieldReference)
  | invoke (kind : InvokeKind) (method : MethodReference) (args : List Register)
  deriving DecidableEq, Repr

namespace Instruction

variable {τ σ : Type}

/-- The size of the instruction in units of sixteen bits. -/
def size : Instruction τ → Nat
  | nop | move _ _ | moveResult _ | moveException _ | returnVoid | returnValue _ | throw _
  | unary _ _ _ | arrayLength _ _ => 1
  | const _ (.long _) | const _ (.double _) => 5
  | const _ (.string _) | const _ (.type _) => 2
  | const _ _ => 3
  | goto _ | switch _ _ | fillArray _ _ | invoke _ _ _ => 3
  | branch _ _ _ _ | compare _ _ _ _ | binary _ _ _ _ _ | newInstance _ _ | checkCast _ _
  | instanceOf _ _ _ | newArray _ _ _ | arrayGet _ _ _ | arrayPut _ _ _ | fieldGet _ _ _
  | fieldPut _ _ _ => 2

/-- The size of some instructions. -/
def totalSize : List (Instruction τ) → Nat
  | [] => 0
  | i :: r => i.size + totalSize r

/-- The addresses of instructions that are laid out one after another from `start` on. -/
def addressesFrom (start : Address) : List (Instruction τ) → List Address
  | [] => []
  | i :: r => start :: addressesFrom (start + i.size) r

/-- Whether control may continue with the next instruction. -/
def fallsThrough : Instruction τ → Bool
  | returnVoid | returnValue _ | throw _ | goto _ => false
  | _ => true

/-- Whether the instruction names places to jump to. -/
def isBranch : Instruction τ → Bool
  | goto _ | branch _ _ _ _ | switch _ _ => true
  | _ => false

/-- The places that the instruction can jump to, in the order in which it names them. -/
def targets : Instruction τ → List τ
  | goto t => [t]
  | branch _ _ _ t => [t]
  | switch _ cases => cases.map Prod.snd
  | _ => []

/-- The instruction with every place it names replaced. -/
def mapTargets (f : τ → σ) : Instruction τ → Instruction σ
  | nop => nop
  | const dst v => const dst v
  | move dst src => move dst src
  | moveResult dst => moveResult dst
  | moveException dst => moveException dst
  | returnVoid => returnVoid
  | returnValue src => returnValue src
  | throw src => throw src
  | goto t => goto (f t)
  | branch c lhs rhs t => branch c lhs rhs (f t)
  | switch src cases => switch src (cases.map fun c => (c.1, f c.2))
  | compare k dst lhs rhs => compare k dst lhs rhs
  | unary op dst src => unary op dst src
  | binary op type dst lhs rhs => binary op type dst lhs rhs
  | newInstance dst d => newInstance dst d
  | checkCast r d => checkCast r d
  | instanceOf dst src d => instanceOf dst src d
  | newArray dst size d => newArray dst size d
  | arrayLength dst a => arrayLength dst a
  | arrayGet dst a i => arrayGet dst a i
  | arrayPut src a i => arrayPut src a i
  | fillArray a data => fillArray a data
  | fieldGet dst o fld => fieldGet dst o fld
  | fieldPut src o fld => fieldPut src o fld
  | invoke k m args => invoke k m args

/-- The instruction with its places replaced in order by the given ones, as far as these go. -/
def withTargets (i : Instruction τ) (ts : List τ) : Instruction τ :=
  match i with
  | goto t => goto (ts.head?.getD t)
  | branch c lhs rhs t => branch c lhs rhs (ts.head?.getD t)
  | switch src cases =>
    switch src ((cases.zipIdx).map fun c => (c.1.1, ts[c.2]?.getD c.1.2))
  | i => i

/-- The registers whose values the instruction uses. -/
def reads : Instruction τ → List Register
  | move _ src | returnValue src | throw src | switch src _ | unary _ _ src
  | instanceOf _ src _ => [src]
  | branch _ lhs rhs _ => lhs :: rhs.toList
  | compare _ _ lhs rhs => [lhs, rhs]
  | binary _ _ _ lhs (.register rhs) => [lhs, rhs]
  | binary _ _ _ lhs (.literal _) => [lhs]
  | checkCast r _ => [r]
  | newArray _ size _ => [size]
  | arrayLength _ a | fillArray a _ => [a]
  | arrayGet _ a i => [a, i]
  | arrayPut src a i => [src, a, i]
  | fieldGet _ o _ => o.toList
  | fieldPut src o _ => src :: o.toList
  | invoke _ _ args => args
  | nop | const _ _ | moveResult _ | moveException _ | returnVoid | goto _ | newInstance _ _ => []

/-- The register that the instruction assigns. -/
def writes? : Instruction τ → Option Register
  | const dst _ | move dst _ | moveResult dst | moveException dst | compare _ dst _ _
  | unary _ dst _ | binary _ _ dst _ _ | newInstance dst _ | instanceOf dst _ _
  | newArray dst _ _ | arrayLength dst _ | arrayGet dst _ _ | fieldGet dst _ _ => some dst
  | _ => none

/-- The instruction with every register it names replaced. -/
def mapRegisters (f : Register → Register) : Instruction τ → Instruction τ
  | nop => nop
  | const dst v => const (f dst) v
  | move dst src => move (f dst) (f src)
  | moveResult dst => moveResult (f dst)
  | moveException dst => moveException (f dst)
  | returnVoid => returnVoid
  | returnValue src => returnValue (f src)
  | throw src => throw (f src)
  | goto t => goto t
  | branch c lhs rhs t => branch c (f lhs) (rhs.map f) t
  | switch src cases => switch (f src) cases
  | compare k dst lhs rhs => compare k (f dst) (f lhs) (f rhs)
  | unary op dst src => unary op (f dst) (f src)
  | binary op type dst lhs (.register rhs) => binary op type (f dst) (f lhs) (.register (f rhs))
  | binary op type dst lhs (.literal v) => binary op type (f dst) (f lhs) (.literal v)
  | newInstance dst d => newInstance (f dst) d
  | checkCast r d => checkCast (f r) d
  | instanceOf dst src d => instanceOf (f dst) (f src) d
  | newArray dst size d => newArray (f dst) (f size) d
  | arrayLength dst a => arrayLength (f dst) (f a)
  | arrayGet dst a i => arrayGet (f dst) (f a) (f i)
  | arrayPut src a i => arrayPut (f src) (f a) (f i)
  | fillArray a data => fillArray (f a) data
  | fieldGet dst o fld => fieldGet (f dst) (o.map f) fld
  | fieldPut src o fld => fieldPut (f src) (o.map f) fld
  | invoke k m args => invoke k m (args.map f)

/-- Whether the instruction does more than assign a register: transfer control, write to the heap or
to a static field, call, or initialise a class. -/
def hasSideEffect : Instruction τ → Bool
  | returnVoid | returnValue _ | throw _ | goto _ | branch _ _ _ _ | switch _ _ | moveException _
  | newInstance _ _ | arrayPut _ _ _ | fillArray _ _ | fieldGet _ none _ | fieldPut _ _ _
  | invoke _ _ _ => true
  | _ => false

/-- Whether the instruction can throw. A division by a literal other than zero cannot. -/
def mayThrow : Instruction τ → Bool
  | binary op type _ _ rhs =>
    op.isDivision && type.isIntegral &&
      match rhs with
      | .literal v => v = 0
      | .register _ => true
  | throw _ | newInstance _ _ | checkCast _ _ | newArray _ _ _ | arrayLength _ _ | arrayGet _ _ _
  | arrayPut _ _ _ | fillArray _ _ | fieldGet _ _ _ | fieldPut _ _ _ | invoke _ _ _ => true
  | _ => false

/-- The name of the instruction. -/
def opcode : Instruction τ → String
  | nop => "nop"
  | const _ v => v.opcode
  | move _ _ => "move"
  | moveResult _ => "move-result"
  | moveException _ => "move-exception"
  | returnVoid => "return-void"
  | returnValue _ => "return"
  | throw _ => "throw"
  | goto _ => "goto/32"
  | branch c _ (some _) _ => "if-" ++ c.keyword
  | branch c _ none _ => "if-" ++ c.keyword ++ "z"
  | switch _ _ => "switch"
  | compare k _ _ _ => k.keyword
  | unary op _ _ => op.keyword
  | binary op type _ _ (.register _) => op.keyword ++ "-" ++ type.keyword
  | binary op type _ _ (.literal _) => op.keyword ++ "-" ++ type.keyword ++ "/lit"
  | newInstance _ _ => "new-instance"
  | checkCast _ _ => "check-cast"
  | instanceOf _ _ _ => "instance-of"
  | newArray _ _ _ => "new-array"
  | arrayLength _ _ => "array-length"
  | arrayGet _ _ _ => "aget"
  | arrayPut _ _ _ => "aput"
  | fillArray _ _ => "fill-array-data"
  | fieldGet _ (some _) _ => "iget"
  | fieldGet _ none _ => "sget"
  | fieldPut _ (some _) _ => "iput"
  | fieldPut _ none _ => "sput"
  | invoke k _ _ => "invoke-" ++ k.keyword

theorem size_pos (i : Instruction τ) : 0 < i.size := by
  unfold size
  split <;> decide

theorem mapTargets_mapTargets {σ υ : Type} (f : τ → σ) (g : σ → υ) (i : Instruction τ) :
    (i.mapTargets f).mapTargets g = i.mapTargets (g ∘ f) := by
  cases i <;> simp [mapTargets, Function.comp_def]

theorem mapTargets_id (i : Instruction τ) : i.mapTargets id = i := by
  cases i <;> simp [mapTargets]

theorem size_mapTargets (f : τ → σ) (i : Instruction τ) : (i.mapTargets f).size = i.size := by
  cases i with
  | const dst v => cases v <;> rfl
  | _ => rfl

theorem totalSize_map_mapTargets (f : τ → σ) (code : List (Instruction τ)) :
    totalSize (code.map (mapTargets f)) = totalSize code := by
  induction code with
  | nil => rfl
  | cons i r ih => simp [totalSize, size_mapTargets, ih]

theorem length_addressesFrom (start : Address) (code : List (Instruction τ)) :
    (addressesFrom start code).length = code.length := by
  induction code generalizing start with
  | nil => rfl
  | cons i r ih => simp [addressesFrom, ih]

theorem addressesFrom_map_mapTargets (f : τ → σ) (start : Address) (code : List (Instruction τ)) :
    addressesFrom start (code.map (mapTargets f)) = addressesFrom start code := by
  induction code generalizing start with
  | nil => rfl
  | cons i r ih => simp [addressesFrom, size_mapTargets, ih]

theorem targets_mapTargets (f : τ → σ) (i : Instruction τ) :
    (i.mapTargets f).targets = i.targets.map f := by
  cases i <;> simp [mapTargets, targets, Function.comp_def]

end Instruction

end Dalvik
