import DebugGuard.Expand.Expander
import DebugGuard.Forest.Layout
import DebugGuard.Forest.Parser
import DebugGuard.Script.Render
import DebugGuard.Settings.Read

/-!
# A module from its source to its expansion

The pass goes through the tree, the inner statements before the outer ones, because a helper call
may stand inside the argument of another one, and must be looked at while it is still below the
script.  At the end it finishes the module.
-/

namespace DebugGuard

namespace Expand

/-- Works through the nodes at most `fuel` levels below a node, and the node after them.  Imports of
features are replaced, imports of the debug tools noted, helper calls queued. -/
def visitUpTo (settings : Settings) : Nat → Ref → Expand Unit
  | 0, _ => return
  | fuel + 1, r => do
    let f ← forest
    match f.node? r with
    | none => return
    | some (.importFrom specifiers source) =>
      if settings.isFeatureSource source then discard (inlineFeatures settings r)
      else if source == settings.toolsSource then noteTools specifiers
    | some _ =>
      (f.childrenOf r).forM fun (c : Nat) => visitUpTo settings fuel c
      discard (queue settings r)

/-- Works through a whole tree.  No way down is longer than the forest is large. -/
def visit (settings : Settings) (r : Ref) : Expand Unit := do
  visitUpTo settings (← forest).size r

/-- The whole pass over the tree of `root`. -/
def pass (settings : Settings) (root : Ref) : Expand Unit := do
  visit settings root
  finish settings root

end Expand

namespace Forest

/-- Runs the pass, with nothing known before. -/
def expand (f : Forest) (settings : Settings) (root : Ref) : Except ExpandError Unit × Forest :=
  let (result, work) := (Expand.pass settings root).run ⟨f, .start⟩
  (result, work.forest)

end Forest

/-- Why a source text is not transformed. -/
inductive TransformError where
  | source (error : SourceError)
  | expand (error : ExpandError)
  deriving DecidableEq, Repr

/-- The message of the parser or of the expander, as it is. -/
def TransformError.message : TransformError → String
  | .source error => error.message
  | .expand error => error.message

/-- The expansion of a source text. -/
def transform (settings : Settings) (source : String) : Except TransformError String :=
  match Forest.parse source with
  | .error e => .error (.source e)
  | .ok (root, f) =>
    match f.expand settings root with
    | (.error e, _) => .error (.expand e)
    | (.ok (), f') => .ok (f'.tree root).renderScript

end DebugGuard
