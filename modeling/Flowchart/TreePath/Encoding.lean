import Flowchart.TreePath
import Flowchart.Status

/-!
# The written form of paths

A path is the array of its segments. A branch is written with its sort under `branch` and, if it
has one, with its index or its case under `key`.
-/

namespace Flowchart

namespace Branch

def toJson : Branch → Json
  | fork index => .obj [("branch", .str "fork"), ("key", .nat index)]
  | case key => .obj [("branch", .str "case"), ("key", .str key)]
  | default => .obj [("branch", .str "default")]
  | loopBody => .obj [("branch", .str "loopOver")]

/-- The branch of a sort, which has `key` beside it. -/
def ofSort (sort : String) (key : Option Doc) : Except Fault Branch :=
  match sort, key with
  | "fork", some d => do pure (fork (← d.unsigned64))
  | "case", some d => do pure (case (← d.string))
  | "default", none | "default", some .null => pure default
  | "loopOver", none | "loopOver", some .null => pure loopBody
  | _, some d => throw d.mismatch
  | _, none => throw .shape

def sorts : List String := ["fork", "case", "default", "loopOver"]

/-- In an array the sort comes first, and is given by its name. -/
def ofDoc : Doc → Except Fault Branch
  | .arr [sort, key] _ => do ofSort (← sort.string) (some key)
  | d => d.object fun members =>
    match Dict.get? members "branch" with
    | some sort => do ofSort (← Doc.named id sorts .value sort) (Dict.get? members "key")
    | none => throw .shape

end Branch

namespace Segment

def indexField : Field Nat := .required "index" Doc.unsigned64 .nat

def branchField : Field Branch := .required "branch" Branch.ofDoc Branch.toJson

def toJson (s : Segment) : Json :=
  .obj (indexField.written s.index ++ branchField.written s.branch)

def ofDoc (d : Doc) : Except Fault Segment := do
  let members ← d.record .value [indexField.check, branchField.check]
  pure { index := ← indexField.get members, branch := ← branchField.get members }

end Segment

namespace TreePath

def toJson (p : TreePath) : Json := .arr (p.segments.map Segment.toJson)

def ofDoc (d : Doc) : Except Fault TreePath := do pure ⟨← d.list Segment.ofDoc⟩

end TreePath

end Flowchart
