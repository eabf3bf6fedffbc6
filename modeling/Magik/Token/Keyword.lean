/-
  Magik.Token.Keyword — the words of Magik that begin with an underscore.

  Each keyword has its spelling in a source and the label by which messages name it.
-/

namespace Magik

inductive Keyword where
  | kwPackage | kwPragma | kwMethod | kwEndMethod | kwProc | kwEndProc | kwPrivate | kwIter | kwAbstract
  | kwOptional | kwGather | kwScatter | kwIf | kwThen | kwElif | kwElse | kwEndIf | kwFor | kwOver | kwWhile
  | kwLoop | kwEndLoop | kwLoopBody | kwLeave | kwContinue | kwReturn | kwLocal | kwConstant | kwGlobal
  | kwDynamic | kwImport | kwRecursive | kwBlock | kwEndBlock | kwTry | kwWith | kwWhen | kwEndTry | kwProtect
  | kwProtection | kwEndProtect | kwLock | kwEndLock | kwCatch | kwEndCatch | kwThrow | kwIs | kwIsnt | kwNot
  | kwAnd | kwAndIf | kwOr | kwOrIf | kwXor | kwDiv | kwMod | kwUnset | kwTrue | kwFalse | kwMaybe | kwSelfRef
  | kwClone | kwSuper | kwThisThread
  deriving DecidableEq, Repr

namespace Keyword

def spelling : Keyword → String
  | .kwPackage => "_package"
  | .kwPragma => "_pragma"
  | .kwMethod => "_method"
  | .kwEndMethod => "_endmethod"
  | .kwProc => "_proc"
  | .kwEndProc => "_endproc"
  | .kwPrivate => "_private"
  | .kwIter => "_iter"
  | .kwAbstract => "_abstract"
  | .kwOptional => "_optional"
  | .kwGather => "_gather"
  | .kwScatter => "_scatter"
  | .kwIf => "_if"
  | .kwThen => "_then"
  | .kwElif => "_elif"
  | .kwElse => "_else"
  | .kwEndIf => "_endif"
  | .kwFor => "_for"
  | .kwOver => "_over"
  | .kwWhile => "_while"
  | .kwLoop => "_loop"
  | .kwEndLoop => "_endloop"
  | .kwLoopBody => "_loopbody"
  | .kwLeave => "_leave"
  | .kwContinue => "_continue"
  | .kwReturn => "_return"
  | .kwLocal => "_local"
  | .kwConstant => "_constant"
  | .kwGlobal => "_global"
  | .kwDynamic => "_dynamic"
  | .kwImport => "_import"
  | .kwRecursive => "_recursive"
  | .kwBlock => "_block"
  | .kwEndBlock => "_endblock"
  | .kwTry => "_try"
  | .kwWith => "_with"
  | .kwWhen => "_when"
  | .kwEndTry => "_endtry"
  | .kwProtect => "_protect"
  | .kwProtection => "_protection"
  | .kwEndProtect => "_endprotect"
  | .kwLock => "_lock"
  | .kwEndLock => "_endlock"
  | .kwCatch => "_catch"
  | .kwEndCatch => "_endcatch"
  | .kwThrow => "_throw"
  | .kwIs => "_is"
  | .kwIsnt => "_isnt"
  | .kwNot => "_not"
  | .kwAnd => "_and"
  | .kwAndIf => "_andif"
  | .kwOr => "_or"
  | .kwOrIf => "_orif"
  | .kwXor => "_xor"
  | .kwDiv => "_div"
  | .kwMod => "_mod"
  | .kwUnset => "_unset"
  | .kwTrue => "_true"
  | .kwFalse => "_false"
  | .kwMaybe => "_maybe"
  | .kwSelfRef => "_self"
  | .kwClone => "_clone"
  | .kwSuper => "_super"
  | .kwThisThread => "_thisthread"

def label : Keyword → String
  | .kwPackage => "Package"
  | .kwPragma => "Pragma"
  | .kwMethod => "Method"
  | .kwEndMethod => "EndMethod"
  | .kwProc => "Proc"
  | .kwEndProc => "EndProc"
  | .kwPrivate => "Private"
  | .kwIter => "Iter"
  | .kwAbstract => "Abstract"
  | .kwOptional => "Optional"
  | .kwGather => "Gather"
  | .kwScatter => "Scatter"
  | .kwIf => "If"
  | .kwThen => "Then"
  | .kwElif => "Elif"
  | .kwElse => "Else"
  | .kwEndIf => "EndIf"
  | .kwFor => "For"
  | .kwOver => "Over"
  | .kwWhile => "While"
  | .kwLoop => "Loop"
  | .kwEndLoop => "EndLoop"
  | .kwLoopBody => "LoopBody"
  | .kwLeave => "Leave"
  | .kwContinue => "Continue"
  | .kwReturn => "Return"
  | .kwLocal => "Local"
  | .kwConstant => "Constant"
  | .kwGlobal => "Global"
  | .kwDynamic => "Dynamic"
  | .kwImport => "Import"
  | .kwRecursive => "Recursive"
  | .kwBlock => "Block"
  | .kwEndBlock => "EndBlock"
  | .kwTry => "Try"
  | .kwWith => "With"
  | .kwWhen => "When"
  | .kwEndTry => "EndTry"
  | .kwProtect => "Protect"
  | .kwProtection => "Protection"
  | .kwEndProtect => "EndProtect"
  | .kwLock => "Lock"
  | .kwEndLock => "EndLock"
  | .kwCatch => "Catch"
  | .kwEndCatch => "EndCatch"
  | .kwThrow => "Throw"
  | .kwIs => "Is"
  | .kwIsnt => "Isnt"
  | .kwNot => "Not"
  | .kwAnd => "And"
  | .kwAndIf => "AndIf"
  | .kwOr => "Or"
  | .kwOrIf => "OrIf"
  | .kwXor => "Xor"
  | .kwDiv => "Div"
  | .kwMod => "Mod"
  | .kwUnset => "Unset"
  | .kwTrue => "True"
  | .kwFalse => "False"
  | .kwMaybe => "Maybe"
  | .kwSelfRef => "SelfRef"
  | .kwClone => "Clone"
  | .kwSuper => "Super"
  | .kwThisThread => "ThisThread"

def all : List Keyword :=
  [.kwPackage, .kwPragma, .kwMethod, .kwEndMethod, .kwProc, .kwEndProc, .kwPrivate, .kwIter, .kwAbstract,
   .kwOptional, .kwGather, .kwScatter, .kwIf, .kwThen, .kwElif, .kwElse, .kwEndIf, .kwFor, .kwOver, .kwWhile,
   .kwLoop, .kwEndLoop, .kwLoopBody, .kwLeave, .kwContinue, .kwReturn, .kwLocal, .kwConstant, .kwGlobal,
   .kwDynamic, .kwImport, .kwRecursive, .kwBlock, .kwEndBlock, .kwTry, .kwWith, .kwWhen, .kwEndTry, .kwProtect,
   .kwProtection, .kwEndProtect, .kwLock, .kwEndLock, .kwCatch, .kwEndCatch, .kwThrow, .kwIs, .kwIsnt, .kwNot,
   .kwAnd, .kwAndIf, .kwOr, .kwOrIf, .kwXor, .kwDiv, .kwMod, .kwUnset, .kwTrue, .kwFalse, .kwMaybe, .kwSelfRef,
   .kwClone, .kwSuper, .kwThisThread]

def ofSpelling? (text : String) : Option Keyword := all.find? fun k => k.spelling = text

theorem mem_all (k : Keyword) : k ∈ all := by
  cases k <;> decide

end Keyword

end Magik
