import Midend.ControlTree.Basic

namespace Midend

def indented (level : Nat) (text : String) : String :=
  String.ofList (List.replicate (2 * level) ' ') ++ text

def Region.lines (level : Nat) : Region → List String
  | done => []
  | block b rest => indented level b.text :: rest.lines level
  | branch _ condition t e rest =>
    indented level ("if " ++ condition.text) :: t.lines (level + 1) ++
      indented level "else" :: e.lines (level + 1) ++ indented level "end" :: rest.lines level
  | jump j rest =>
    indented level ("jump " ++ j.target.text ++ if j.loopTail then " (loop)" else "") ::
      rest.lines level

namespace ControlTree

/-- The lines of a group and of the groups below it, to a depth of `fuel`. -/
def groupLines (t : ControlTree) : Nat → Nat → GroupId → List String
  | 0, _, _ => []
  | fuel + 1, level, g =>
    match t.group? g with
    | none => []
    | some group =>
      indented level (g.text ++ " (" ++ group.entry.text ++ ")" ++
          (if group.loopHead then " loop" else "") ++ ":") ::
        group.body.lines (level + 1) ++ group.children.flatMap (t.groupLines fuel (level + 1))

def text (t : ControlTree) : String :=
  String.join ((t.groupLines t.groups.length 0 root).map (· ++ "\n"))

end ControlTree

end Midend
