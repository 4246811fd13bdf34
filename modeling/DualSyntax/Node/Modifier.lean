/-!
# Modifiers of declarations

What a declaration may say about visibility, binding and mutability.  Each language spells the
modifiers it has; `Language.modifiers` gives the spellings.
-/

namespace DualSyntax

inductive Modifier where
  | modPublic | modPrivate | modProtected | modInternal | modStatic | modAbstract | modVirtual
  | modOverride | modSealed | modReadonly | modConst | modExtern | modNew | modPartial
  | modVolatile | modUnsafe | modWriteOnly
deriving DecidableEq, Repr, Inhabited

namespace Modifier

def all : List Modifier :=
  [.modPublic, .modPrivate, .modProtected, .modInternal, .modStatic, .modAbstract, .modVirtual,
   .modOverride, .modSealed, .modReadonly, .modConst, .modExtern, .modNew, .modPartial,
   .modVolatile, .modUnsafe, .modWriteOnly]

def name : Modifier → String
  | modPublic => "Public" | modPrivate => "Private" | modProtected => "Protected"
  | modInternal => "Internal" | modStatic => "Static" | modAbstract => "Abstract"
  | modVirtual => "Virtual" | modOverride => "Override" | modSealed => "Sealed"
  | modReadonly => "Readonly" | modConst => "Const" | modExtern => "Extern" | modNew => "New"
  | modPartial => "Partial" | modVolatile => "Volatile" | modUnsafe => "Unsafe"
  | modWriteOnly => "WriteOnly"

def ofName? (s : String) : Option Modifier := all.find? (·.name == s)

end Modifier

end DualSyntax
