import Mathlib.Data.List.Basic

namespace Mmdata.Image

/-- What is registered under a name, where `none` is a null pointer. -/
structure HelperFuncs (β τ : Type) where
  build : Option β
  test : Option τ
  struct_hash : UInt64

/-- `g_helper_func_table`: null, or a table. -/
abbrev HelperFuncTable (β τ : Type) := Option (List (String × HelperFuncs β τ))

section

variable {β τ : Type}

/-- `g_helper_func_table->find(name)`, of no table nothing. -/
def findHelper (g : HelperFuncTable β τ) (name : String) : Option (HelperFuncs β τ) :=
  g.bind (List.lookup name)

def getBuildFuncByName (g : HelperFuncTable β τ) (name : String) : Option β :=
  (findHelper g name).bind HelperFuncs.build

def getTestFuncByName (g : HelperFuncTable β τ) (name : String) : Option τ :=
  (findHelper g name).bind HelperFuncs.test

def getRootStructHash (g : HelperFuncTable β τ) (name : String) : UInt64 :=
  ((findHelper g name).map HelperFuncs.struct_hash).getD 0

/-- `HelperFuncRegister`, which aborts on a name that has a build function. -/
def helperFuncRegister (name : String) (helper : HelperFuncs β τ) (g : HelperFuncTable β τ) :
    Option (HelperFuncTable β τ) :=
  let table := g.getD []
  if (getBuildFuncByName (some table) name).isSome then none
  else some (some ((name, helper) :: table))

/-- The registrations of a program, one after the other. -/
def registerAll : List (String × HelperFuncs β τ) → HelperFuncTable β τ →
    Option (HelperFuncTable β τ)
  | [], g => some g
  | (name, helper) :: rs, g => (helperFuncRegister name helper g).bind (registerAll rs)

end

end Mmdata.Image
