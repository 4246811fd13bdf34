/-!
# Token kinds

One enumeration serves both languages: a word that is a keyword in both has one kind, and each
language simply never produces the kinds it has no word for.  The order of the constructors is the
order of the numeric codes.
-/

namespace DualSyntax

inductive TokenKind where
  -- trivia; a line break ends a statement in VB
  | whitespace | newLine | lineComment | docComment | blockComment | lineContinuation
  -- the end of the input, unrecognised input, names and literals
  | eof | error | identifier | integerLiteral | realLiteral | stringLiteral | charLiteral
  -- punctuation and operators
  | lParen | rParen | lBrace | rBrace | lBracket | rBracket | semicolon | comma | dot | colon
  | question | questionDot | questionQuestion | plus | minus | star | slash | percent
  | backslash | caret | amp | pipe | tilde | bang | eq | eqEq | bangEq | ltGt | lt | gt | ltEq
  | gtEq | ampAmp | pipePipe | plusPlus | minusMinus | ltLt | gtGt | plusEq | minusEq | starEq
  | slashEq | percentEq | backslashEq | caretEq | ampEq | pipeEq | ltLtEq | gtGtEq | arrow
  | fatArrow
  -- keywords of C#, most of them shared
  | kwAbstract | kwAs | kwBase | kwBool | kwBreak | kwByte | kwCase | kwCatch | kwChar | kwClass
  | kwConst | kwContinue | kwDecimal | kwDefault | kwDo | kwDouble | kwElse | kwEnum | kwEvent
  | kwExtern | kwFalse | kwFinally | kwFixed | kwFloat | kwFor | kwForeach | kwIf | kwIn | kwInt
  | kwInterface | kwInternal | kwIs | kwLock | kwLong | kwNamespace | kwNew | kwNull | kwObject
  | kwOut | kwOverride | kwParams | kwPrivate | kwProtected | kwPublic | kwReadonly | kwRef
  | kwReturn | kwSByte | kwSealed | kwShort | kwStatic | kwString | kwStruct | kwSwitch | kwThis
  | kwThrow | kwTrue | kwTry | kwTypeOf | kwUInt | kwULong | kwUShort | kwUnsafe | kwUsing
  | kwVirtual | kwVoid | kwVolatile | kwWhile
  -- keywords of VB alone
  | kwAnd | kwAndAlso | kwBoolean | kwByRef | kwByVal | kwCType | kwDim | kwDirectCast | kwEach
  | kwElseIf | kwEnd | kwExit | kwFriend | kwFunction | kwGetType | kwImplements | kwImports
  | kwInherits | kwInteger | kwIsNot | kwLoop | kwMe | kwMod | kwModule | kwMustInherit
  | kwMustOverride | kwMyBase | kwNext | kwNot | kwNotInheritable | kwNotOverridable | kwNothing
  | kwOptional | kwOr | kwOrElse | kwOverridable | kwOverrides | kwParamArray | kwProperty
  | kwSelect | kwShadows | kwShared | kwSingle | kwStep | kwStructure | kwSub | kwSyncLock
  | kwThen | kwTo | kwTryCast | kwUInteger | kwUntil | kwWriteOnly | kwXor
  -- words that are keywords in some places only
  | kwGet | kwSet | kwValue | kwVar | kwPartial | kwAdd | kwRemove
deriving DecidableEq, Repr, Inhabited

namespace TokenKind

def all : List TokenKind :=
  [.whitespace, .newLine, .lineComment, .docComment, .blockComment, .lineContinuation, .eof,
   .error, .identifier, .integerLiteral, .realLiteral, .stringLiteral, .charLiteral, .lParen,
   .rParen, .lBrace, .rBrace, .lBracket, .rBracket, .semicolon, .comma, .dot, .colon, .question,
   .questionDot, .questionQuestion, .plus, .minus, .star, .slash, .percent, .backslash, .caret,
   .amp, .pipe, .tilde, .bang, .eq, .eqEq, .bangEq, .ltGt, .lt, .gt, .ltEq, .gtEq, .ampAmp,
   .pipePipe, .plusPlus, .minusMinus, .ltLt, .gtGt, .plusEq, .minusEq, .starEq, .slashEq,
   .percentEq, .backslashEq, .caretEq, .ampEq, .pipeEq, .ltLtEq, .gtGtEq, .arrow, .fatArrow,
   .kwAbstract, .kwAs, .kwBase, .kwBool, .kwBreak, .kwByte, .kwCase, .kwCatch, .kwChar,
   .kwClass, .kwConst, .kwContinue, .kwDecimal, .kwDefault, .kwDo, .kwDouble, .kwElse, .kwEnum,
   .kwEvent, .kwExtern, .kwFalse, .kwFinally, .kwFixed, .kwFloat, .kwFor, .kwForeach, .kwIf,
   .kwIn, .kwInt, .kwInterface, .kwInternal, .kwIs, .kwLock, .kwLong, .kwNamespace, .kwNew,
   .kwNull, .kwObject, .kwOut, .kwOverride, .kwParams, .kwPrivate, .kwProtected, .kwPublic,
   .kwReadonly, .kwRef, .kwReturn, .kwSByte, .kwSealed, .kwShort, .kwStatic, .kwString,
   .kwStruct, .kwSwitch, .kwThis, .kwThrow, .kwTrue, .kwTry, .kwTypeOf, .kwUInt, .kwULong,
   .kwUShort, .kwUnsafe, .kwUsing, .kwVirtual, .kwVoid, .kwVolatile, .kwWhile, .kwAnd,
   .kwAndAlso, .kwBoolean, .kwByRef, .kwByVal, .kwCType, .kwDim, .kwDirectCast, .kwEach,
   .kwElseIf, .kwEnd, .kwExit, .kwFriend, .kwFunction, .kwGetType, .kwImplements, .kwImports,
   .kwInherits, .kwInteger, .kwIsNot, .kwLoop, .kwMe, .kwMod, .kwModule, .kwMustInherit,
   .kwMustOverride, .kwMyBase, .kwNext, .kwNot, .kwNotInheritable, .kwNotOverridable,
   .kwNothing, .kwOptional, .kwOr, .kwOrElse, .kwOverridable, .kwOverrides, .kwParamArray,
   .kwProperty, .kwSelect, .kwShadows, .kwShared, .kwSingle, .kwStep, .kwStructure, .kwSub,
   .kwSyncLock, .kwThen, .kwTo, .kwTryCast, .kwUInteger, .kwUntil, .kwWriteOnly, .kwXor, .kwGet,
   .kwSet, .kwValue, .kwVar, .kwPartial, .kwAdd, .kwRemove]

def name : TokenKind → String
  | .whitespace => "Whitespace"
  | .newLine => "NewLine"
  | .lineComment => "LineComment"
  | .docComment => "DocComment"
  | .blockComment => "BlockComment"
  | .lineContinuation => "LineContinuation"
  | .eof => "Eof"
  | .error => "Error"
  | .identifier => "Identifier"
  | .integerLiteral => "IntegerLiteral"
  | .realLiteral => "RealLiteral"
  | .stringLiteral => "StringLiteral"
  | .charLiteral => "CharLiteral"
  | .lParen => "LParen"
  | .rParen => "RParen"
  | .lBrace => "LBrace"
  | .rBrace => "RBrace"
  | .lBracket => "LBracket"
  | .rBracket => "RBracket"
  | .semicolon => "Semicolon"
  | .comma => "Comma"
  | .dot => "Dot"
  | .colon => "Colon"
  | .question => "Question"
  | .questionDot => "QuestionDot"
  | .questionQuestion => "QuestionQuestion"
  | .plus => "Plus"
  | .minus => "Minus"
  | .star => "Star"
  | .slash => "Slash"
  | .percent => "Percent"
  | .backslash => "Backslash"
  | .caret => "Caret"
  | .amp => "Amp"
  | .pipe => "Pipe"
  | .tilde => "Tilde"
  | .bang => "Bang"
  | .eq => "Eq"
  | .eqEq => "EqEq"
  | .bangEq => "BangEq"
  | .ltGt => "LtGt"
  | .lt => "Lt"
  | .gt => "Gt"
  | .ltEq => "LtEq"
  | .gtEq => "GtEq"
  | .ampAmp => "AmpAmp"
  | .pipePipe => "PipePipe"
  | .plusPlus => "PlusPlus"
  | .minusMinus => "MinusMinus"
  | .ltLt => "LtLt"
  | .gtGt => "GtGt"
  | .plusEq => "PlusEq"
  | .minusEq => "MinusEq"
  | .starEq => "StarEq"
  | .slashEq => "SlashEq"
  | .percentEq => "PercentEq"
  | .backslashEq => "BackslashEq"
  | .caretEq => "CaretEq"
  | .ampEq => "AmpEq"
  | .pipeEq => "PipeEq"
  | .ltLtEq => "LtLtEq"
  | .gtGtEq => "GtGtEq"
  | .arrow => "Arrow"
  | .fatArrow => "FatArrow"
  | .kwAbstract => "Abstract"
  | .kwAs => "As"
  | .kwBase => "Base"
  | .kwBool => "Bool"
  | .kwBreak => "Break"
  | .kwByte => "Byte"
  | .kwCase => "Case"
  | .kwCatch => "Catch"
  | .kwChar => "Char"
  | .kwClass => "Class"
  | .kwConst => "Const"
  | .kwContinue => "Continue"
  | .kwDecimal => "Decimal"
  | .kwDefault => "Default"
  | .kwDo => "Do"
  | .kwDouble => "Double"
  | .kwElse => "Else"
  | .kwEnum => "Enum"
  | .kwEvent => "Event"
  | .kwExtern => "Extern"
  | .kwFalse => "False"
  | .kwFinally => "Finally"
  | .kwFixed => "Fixed"
  | .kwFloat => "Float"
  | .kwFor => "For"
  | .kwForeach => "Foreach"
  | .kwIf => "If"
  | .kwIn => "In"
  | .kwInt => "Int"
  | .kwInterface => "Interface"
  | .kwInternal => "Internal"
  | .kwIs => "Is"
  | .kwLock => "Lock"
  | .kwLong => "Long"
  | .kwNamespace => "Namespace"
  | .kwNew => "New"
  | .kwNull => "Null"
  | .kwObject => "Object"
  | .kwOut => "Out"
  | .kwOverride => "Override"
  | .kwParams => "Params"
  | .kwPrivate => "Private"
  | .kwProtected => "Protected"
  | .kwPublic => "Public"
  | .kwReadonly => "Readonly"
  | .kwRef => "Ref"
  | .kwReturn => "Return"
  | .kwSByte => "SByte"
  | .kwSealed => "Sealed"
  | .kwShort => "Short"
  | .kwStatic => "Static"
  | .kwString => "String"
  | .kwStruct => "Struct"
  | .kwSwitch => "Switch"
  | .kwThis => "This"
  | .kwThrow => "Throw"
  | .kwTrue => "True"
  | .kwTry => "Try"
  | .kwTypeOf => "TypeOf"
  | .kwUInt => "UInt"
  | .kwULong => "ULong"
  | .kwUShort => "UShort"
  | .kwUnsafe => "Unsafe"
  | .kwUsing => "Using"
  | .kwVirtual => "Virtual"
  | .kwVoid => "Void"
  | .kwVolatile => "Volatile"
  | .kwWhile => "While"
  | .kwAnd => "And"
  | .kwAndAlso => "AndAlso"
  | .kwBoolean => "Boolean"
  | .kwByRef => "ByRef"
  | .kwByVal => "ByVal"
  | .kwCType => "CType"
  | .kwDim => "Dim"
  | .kwDirectCast => "DirectCast"
  | .kwEach => "Each"
  | .kwElseIf => "ElseIf"
  | .kwEnd => "End"
  | .kwExit => "Exit"
  | .kwFriend => "Friend"
  | .kwFunction => "Function"
  | .kwGetType => "GetType"
  | .kwImplements => "Implements"
  | .kwImports => "Imports"
  | .kwInherits => "Inherits"
  | .kwInteger => "Integer"
  | .kwIsNot => "IsNot"
  | .kwLoop => "Loop"
  | .kwMe => "Me"
  | .kwMod => "Mod"
  | .kwModule => "Module"
  | .kwMustInherit => "MustInherit"
  | .kwMustOverride => "MustOverride"
  | .kwMyBase => "MyBase"
  | .kwNext => "Next"
  | .kwNot => "Not"
  | .kwNotInheritable => "NotInheritable"
  | .kwNotOverridable => "NotOverridable"
  | .kwNothing => "Nothing"
  | .kwOptional => "Optional"
  | .kwOr => "Or"
  | .kwOrElse => "OrElse"
  | .kwOverridable => "Overridable"
  | .kwOverrides => "Overrides"
  | .kwParamArray => "ParamArray"
  | .kwProperty => "Property"
  | .kwSelect => "Select"
  | .kwShadows => "Shadows"
  | .kwShared => "Shared"
  | .kwSingle => "Single"
  | .kwStep => "Step"
  | .kwStructure => "Structure"
  | .kwSub => "Sub"
  | .kwSyncLock => "SyncLock"
  | .kwThen => "Then"
  | .kwTo => "To"
  | .kwTryCast => "TryCast"
  | .kwUInteger => "UInteger"
  | .kwUntil => "Until"
  | .kwWriteOnly => "WriteOnly"
  | .kwXor => "Xor"
  | .kwGet => "Get"
  | .kwSet => "Set"
  | .kwValue => "Value"
  | .kwVar => "Var"
  | .kwPartial => "Partial"
  | .kwAdd => "Add"
  | .kwRemove => "Remove"

def ofName? (s : String) : Option TokenKind := all.find? (·.name == s)

def code (k : TokenKind) : Nat := k.ctorIdx

def ofCode? (n : Nat) : Option TokenKind := all[n]?

/-- Blanks, line breaks, comments and line continuations. -/
def isTrivia : TokenKind → Bool
  | .whitespace | .newLine | .lineComment | .docComment | .blockComment | .lineContinuation => true
  | _ => false

def isComment : TokenKind → Bool
  | .lineComment | .docComment | .blockComment => true
  | _ => false

def isLiteral : TokenKind → Bool
  | .integerLiteral | .realLiteral | .stringLiteral | .charLiteral => true
  | _ => false

/-- Keywords, those that are keywords in some places only included. -/
def isKeyword (k : TokenKind) : Bool := code .kwAbstract ≤ k.code

/-- The fixed text of punctuation and operators. -/
def punctuation? : TokenKind → Option String
  | .lParen => some "("
  | .rParen => some ")"
  | .lBrace => some "\x7b"
  | .rBrace => some "\x7d"
  | .lBracket => some "["
  | .rBracket => some "]"
  | .semicolon => some ";"
  | .comma => some ","
  | .dot => some "."
  | .colon => some ":"
  | .question => some "?"
  | .questionDot => some "?."
  | .questionQuestion => some "??"
  | .plus => some "+"
  | .minus => some "-"
  | .star => some "*"
  | .slash => some "/"
  | .percent => some "%"
  | .backslash => some "\\"
  | .caret => some "^"
  | .amp => some "&"
  | .pipe => some "|"
  | .tilde => some "~"
  | .bang => some "!"
  | .eq => some "="
  | .eqEq => some "=="
  | .bangEq => some "!="
  | .ltGt => some "<>"
  | .lt => some "<"
  | .gt => some ">"
  | .ltEq => some "<="
  | .gtEq => some ">="
  | .ampAmp => some "&&"
  | .pipePipe => some "||"
  | .plusPlus => some "++"
  | .minusMinus => some "--"
  | .ltLt => some "<<"
  | .gtGt => some ">>"
  | .plusEq => some "+="
  | .minusEq => some "-="
  | .starEq => some "*="
  | .slashEq => some "/="
  | .percentEq => some "%="
  | .backslashEq => some "\\="
  | .caretEq => some "^="
  | .ampEq => some "&="
  | .pipeEq => some "|="
  | .ltLtEq => some "<<="
  | .gtGtEq => some ">>="
  | .arrow => some "->"
  | .fatArrow => some "=>"
  | _ => none

end TokenKind

end DualSyntax
