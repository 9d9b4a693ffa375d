import ClosureIR.Program.Names
import ClosureIR.Renaming.Basic
import ClosureIR.Renaming.Mention

/-!
# Preparing a renaming

Before a graph is copied, its host hands out a label for every label and a
temporary for every temporary that the graph mentions.
-/

namespace ClosureIR.Renaming

open Program

/-- A new temporary of the host; it keeps a name that was given to the old one. -/
def freshTemp (host : ScopeId) (t : Temporary) : BuildM Temporary :=
  match t.tag with
  | .named name => newNamedTemp host name
  | .scope | .closure _ => newTemp host

/-- Rename what is mentioned, unless that was done before. -/
def cover (r : Renaming) : Mention → BuildM Renaming
  | .label l =>
    if r.labels.contains l then return r
    else do
      let fresh ← newLabel r.host
      return r.withLabel l fresh
  | .temp t =>
    if r.vars.contains (.ofTemp t) then return r
    else do
      let fresh ← freshTemp r.host t
      return r.withVariable (.ofTemp t) (.ofTemp fresh)

def coverAll (r : Renaming) : List Mention → BuildM Renaming
  | [] => return r
  | m :: rest => do
    let next ← r.cover m
    next.coverAll rest

def prepare (r : Renaming) (g : Graph) : BuildM Renaming := r.coverAll g.mentions

end ClosureIR.Renaming
