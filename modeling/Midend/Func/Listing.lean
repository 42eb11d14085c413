import Midend.Func.Basic

namespace Midend.Func

def spelledList (vs : List ValueId) : String :=
  "[" ++ ", ".intercalate (vs.map Handle.spelled) ++ "]"

def signatureText (f : Func) : String :=
  "function " ++ f.name ++ "(" ++
    ", ".intercalate (f.arguments.map Handle.text ++ if f.variadic then ["..."] else []) ++ ")" ++
    if f.openUpvalues.isEmpty && f.closedUpvalues.isEmpty then ""
    else " upvalues(open: " ++ spelledList f.openUpvalues ++ ", closed: " ++
      spelledList f.closedUpvalues ++ ")"

def phiText (p : Phi) : String :=
  p.result.text ++ " = phi [" ++
    ", ".intercalate (p.sources.toList.map fun s => s.1.text ++ ": " ++ s.2.text) ++ "]"

/-- An instruction: result, operation, operands. Operands that follow targets have a comma before
the first one too. -/
def instText (i : Inst) : String :=
  let operands := ", ".intercalate (i.operands.map Handle.text)
  let gap := if i.operands.isEmpty then "" else if i.opcode.targets.isEmpty then " " else ", "
  ((i.result.map fun r => r.text ++ " = ").getD "") ++ i.opcode.text ++ gap ++ operands

def blockLines (f : Func) (b : BlockId) (data : Block) : List String :=
  [b.text ++ ":" ++ if b = f.entry then " (entry)" else ""] ++
    (data.phis.filterMap f.phis.get?).map (fun p => "  " ++ phiText p) ++
    (data.insts.filterMap f.insts.get?).map fun i => "  " ++ instText i

def listing (f : Func) : String :=
  let lines := f.blockIds.flatMap fun b => ((f.blocks.get? b).map (f.blockLines b)).getD []
  String.join ((f.signatureText :: lines).map (· ++ "\n"))

end Midend.Func
