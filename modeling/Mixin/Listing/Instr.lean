import Mixin.Decimal.Shortest
import Mixin.Text.Quoted

/-!
# Instructions

The instructions of the stack machine for which programs are compiled, and the text of each.
-/

namespace Mixin

inductive Instr where
  | loadNull
  | loadUnit
  | loadInt (value : Nat)
  | loadFloat (value : Binary64)
  | loadBool (value : Bool)
  | loadChar (value : Char)
  | loadString (value : String)
  | loadArg (index : Nat)
  | storeArg (index : Nat)
  | loadLocal (slot : Nat)
  | storeLocal (slot : Nat)
  | loadField (name : String)
  | storeField (name : String)
  | loadMember (name : String)
  | storeMember (name : String)
  | loadInstance (name : String)
  | loadSymbol (name : String)
  | storeSymbol (name : String)
  | callVirtual (name : String) (arity : Nat)
  | callConstructor (type : String) (arity : Nat)
  | create (type : String) (arity : Nat)
  | loadClosure (index : Nat)
  | branch (target : Nat)
  | branchFalse (target : Nat)
  | label (name : Nat)
  | pop
  | ret
  deriving DecidableEq, Repr, Inhabited

namespace Instr

def applied (name : String) (arity : Nat) : String := name ++ "(" ++ toString arity ++ ")"

def constructorOf (type : String) (arity : Nat) : String := applied (type ++ "::.ctor") arity

def labelName (n : Nat) : String := "L" ++ toString n

def closureName (index : Nat) : String := "<closure>" ++ toString index

def render : Instr → String
  | loadNull => "ldnull"
  | loadUnit => "ldunit"
  | loadInt value => "ldc.i8 " ++ toString value
  | loadFloat value => "ldc.r8 " ++ value.render
  | loadBool value => "ldc.i4 " ++ (if value then "1" else "0")
  | loadChar value => "ldc.i4 " ++ toString value.toNat
  | loadString value => "ldstr " ++ Text.quoteString value
  | loadArg index => "ldarg." ++ toString index
  | storeArg index => "starg." ++ toString index
  | loadLocal slot => "ldloc." ++ toString slot
  | storeLocal slot => "stloc." ++ toString slot
  | loadField name => "ldfld " ++ name
  | storeField name => "stfld " ++ name
  | loadMember name => "ldmember " ++ name
  | storeMember name => "stmember " ++ name
  | loadInstance name => "ldsfld " ++ name ++ "::instance"
  | loadSymbol name => "ldsym " ++ name
  | storeSymbol name => "stsym " ++ name
  | callVirtual name arity => "callvirt " ++ applied name arity
  | callConstructor type arity => "call " ++ constructorOf type arity
  | create type arity => "newobj " ++ constructorOf type arity
  | loadClosure index => "ldftn " ++ closureName index
  | branch target => "br " ++ labelName target
  | branchFalse target => "brfalse " ++ labelName target
  | label name => labelName name ++ ":"
  | pop => "pop"
  | ret => "ret"

end Instr

end Mixin
