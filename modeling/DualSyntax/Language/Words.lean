import DualSyntax.Language.Basic
import DualSyntax.Node.Modifier
import DualSyntax.Token.Kind

/-!
# Words of the languages

Reserved words cannot be names unless they are escaped.  Contextual words are keywords where the
grammar expects them and names everywhere else.  VB words are listed in their canonical case and
looked up in any case.
-/

namespace DualSyntax.Language

def csharpReserved : List (String × TokenKind) :=
  [("abstract", .kwAbstract), ("as", .kwAs), ("base", .kwBase), ("bool", .kwBool),
   ("break", .kwBreak), ("byte", .kwByte), ("case", .kwCase), ("catch", .kwCatch),
   ("char", .kwChar), ("class", .kwClass), ("const", .kwConst), ("continue", .kwContinue),
   ("decimal", .kwDecimal), ("default", .kwDefault), ("do", .kwDo), ("double", .kwDouble),
   ("else", .kwElse), ("enum", .kwEnum), ("event", .kwEvent), ("extern", .kwExtern),
   ("false", .kwFalse), ("finally", .kwFinally), ("fixed", .kwFixed), ("float", .kwFloat),
   ("for", .kwFor), ("foreach", .kwForeach), ("if", .kwIf), ("in", .kwIn), ("int", .kwInt),
   ("interface", .kwInterface), ("internal", .kwInternal), ("is", .kwIs), ("lock", .kwLock),
   ("long", .kwLong), ("namespace", .kwNamespace), ("new", .kwNew), ("null", .kwNull),
   ("object", .kwObject), ("out", .kwOut), ("override", .kwOverride), ("params", .kwParams),
   ("private", .kwPrivate), ("protected", .kwProtected), ("public", .kwPublic),
   ("readonly", .kwReadonly), ("ref", .kwRef), ("return", .kwReturn), ("sbyte", .kwSByte),
   ("sealed", .kwSealed), ("short", .kwShort), ("static", .kwStatic), ("string", .kwString),
   ("struct", .kwStruct), ("switch", .kwSwitch), ("this", .kwThis), ("throw", .kwThrow),
   ("true", .kwTrue), ("try", .kwTry), ("typeof", .kwTypeOf), ("uint", .kwUInt),
   ("ulong", .kwULong), ("unsafe", .kwUnsafe), ("ushort", .kwUShort), ("using", .kwUsing),
   ("virtual", .kwVirtual), ("void", .kwVoid), ("volatile", .kwVolatile), ("while", .kwWhile)]

def visualBasicReserved : List (String × TokenKind) :=
  [("And", .kwAnd), ("AndAlso", .kwAndAlso), ("As", .kwAs), ("Boolean", .kwBoolean),
   ("ByRef", .kwByRef), ("Byte", .kwByte), ("ByVal", .kwByVal), ("Case", .kwCase),
   ("Catch", .kwCatch), ("Char", .kwChar), ("Class", .kwClass), ("Const", .kwConst),
   ("Continue", .kwContinue), ("CType", .kwCType), ("Decimal", .kwDecimal), ("Dim", .kwDim),
   ("DirectCast", .kwDirectCast), ("Do", .kwDo), ("Double", .kwDouble), ("Each", .kwEach),
   ("Else", .kwElse), ("ElseIf", .kwElseIf), ("End", .kwEnd), ("Enum", .kwEnum),
   ("Event", .kwEvent), ("Exit", .kwExit), ("False", .kwFalse), ("Finally", .kwFinally),
   ("For", .kwFor), ("Friend", .kwFriend), ("Function", .kwFunction), ("GetType", .kwGetType),
   ("If", .kwIf), ("Implements", .kwImplements), ("Imports", .kwImports), ("In", .kwIn),
   ("Inherits", .kwInherits), ("Integer", .kwInteger), ("Interface", .kwInterface),
   ("Is", .kwIs), ("IsNot", .kwIsNot), ("Long", .kwLong), ("Loop", .kwLoop), ("Me", .kwMe),
   ("Mod", .kwMod), ("Module", .kwModule), ("MustInherit", .kwMustInherit),
   ("MustOverride", .kwMustOverride), ("MyBase", .kwMyBase), ("Namespace", .kwNamespace),
   ("New", .kwNew), ("Next", .kwNext), ("Not", .kwNot), ("Nothing", .kwNothing),
   ("NotInheritable", .kwNotInheritable), ("NotOverridable", .kwNotOverridable),
   ("Object", .kwObject), ("Optional", .kwOptional), ("Or", .kwOr), ("OrElse", .kwOrElse),
   ("Overridable", .kwOverridable), ("Overrides", .kwOverrides), ("ParamArray", .kwParamArray),
   ("Private", .kwPrivate), ("Property", .kwProperty), ("Protected", .kwProtected),
   ("Public", .kwPublic), ("ReadOnly", .kwReadonly), ("Return", .kwReturn), ("SByte", .kwSByte),
   ("Select", .kwSelect), ("Shadows", .kwShadows), ("Shared", .kwShared), ("Short", .kwShort),
   ("Single", .kwSingle), ("Step", .kwStep), ("String", .kwString), ("Structure", .kwStructure),
   ("Sub", .kwSub), ("SyncLock", .kwSyncLock), ("Then", .kwThen), ("Throw", .kwThrow),
   ("To", .kwTo), ("True", .kwTrue), ("Try", .kwTry), ("TryCast", .kwTryCast),
   ("TypeOf", .kwTypeOf), ("UInteger", .kwUInteger), ("ULong", .kwULong), ("UShort", .kwUShort),
   ("Until", .kwUntil), ("Using", .kwUsing), ("While", .kwWhile), ("WriteOnly", .kwWriteOnly),
   ("Xor", .kwXor)]

def reserved : Language → List (String × TokenKind)
  | csharp => csharpReserved
  | visualBasic => visualBasicReserved

def contextual : Language → List (String × TokenKind)
  | csharp =>
    [("get", .kwGet), ("set", .kwSet), ("value", .kwValue), ("var", .kwVar),
     ("partial", .kwPartial), ("add", .kwAdd), ("remove", .kwRemove)]
  | visualBasic =>
    [("Get", .kwGet), ("Set", .kwSet), ("Value", .kwValue), ("Partial", .kwPartial)]

/-- The modifiers of C# and their words. -/
def csharpModifiers : List (String × Modifier) :=
  [("public", .modPublic), ("private", .modPrivate), ("protected", .modProtected),
   ("internal", .modInternal), ("static", .modStatic), ("abstract", .modAbstract),
   ("virtual", .modVirtual), ("override", .modOverride), ("sealed", .modSealed),
   ("readonly", .modReadonly), ("const", .modConst), ("extern", .modExtern), ("new", .modNew),
   ("partial", .modPartial), ("volatile", .modVolatile), ("unsafe", .modUnsafe)]

/-- The modifiers of VB and their words.  A modifier with two words is written with the first. -/
def visualBasicModifiers : List (String × Modifier) :=
  [("Public", .modPublic), ("Private", .modPrivate), ("Protected", .modProtected),
   ("Friend", .modInternal), ("Shared", .modStatic), ("MustInherit", .modAbstract),
   ("MustOverride", .modAbstract), ("Overridable", .modVirtual), ("Overrides", .modOverride),
   ("NotInheritable", .modSealed), ("NotOverridable", .modSealed), ("ReadOnly", .modReadonly),
   ("Const", .modConst), ("Shadows", .modNew), ("Partial", .modPartial),
   ("WriteOnly", .modWriteOnly)]

def modifiers : Language → List (String × Modifier)
  | csharp => csharpModifiers
  | visualBasic => visualBasicModifiers

def findWord (l : Language) (table : List (String × TokenKind)) (word : String) :
    Option TokenKind :=
  (table.find? fun e => l.normalize e.1 == l.normalize word).map (·.2)

/-- The token kind of a word: reserved, contextual, or none for a plain name. -/
def keyword? (l : Language) (word : String) : Option TokenKind :=
  (l.findWord l.reserved word).or (l.findWord l.contextual word)

/-- Whether a word has to be escaped to be a name. -/
def isReserved (l : Language) (word : String) : Bool := (l.findWord l.reserved word).isSome

def keywordText? (l : Language) (k : TokenKind) : Option String :=
  ((l.reserved ++ l.contextual).find? (·.2 == k)).map (·.1)

def modifierText? (l : Language) (m : Modifier) : Option String :=
  (l.modifiers.find? (·.2 == m)).map (·.1)

def modifier? (l : Language) (word : String) : Option Modifier :=
  (l.modifiers.find? fun e => l.sameName e.1 word).map (·.2)

/-- The name that an identifier token spells: without `@` in C#, without brackets in VB. -/
def unescape (l : Language) (text : String) : String :=
  match l, text.toList with
  | csharp, '@' :: cs => String.ofList cs
  | visualBasic, '[' :: cs => if cs.getLast? = some ']' then String.ofList cs.dropLast else text
  | _, _ => text

end DualSyntax.Language
