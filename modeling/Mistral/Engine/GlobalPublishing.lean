import Mathlib.Logic.Function.Basic
import Mistral.Lib.Dicts
import Mistral.Lib.ReadCommitted
import Mistral.Lib.System

/-! Tasks that publish global variables into the context of their workflow execution (`publish_variables` in
    `mistral/workflow/data_flow.py`), each in its own transaction. -/

namespace Mistral

/-- `merge_dicts`: the dictionary that it leaves in its first argument, and whether it assigns a key of that dictionary
    itself, which is what the column notices. -/
structure MergeDicts where
  merge : Dict → Dict → Dict
  sets : Dict → Dict → Bool

/-- Nested dictionaries are merged in place, and all other values are assigned. -/
structure MergeDicts.InPlace (m : MergeDicts) : Prop where
  merge : Dict.MergesRecursively m.merge
  sets : ∀ l r, m.sets l r ↔ Dict.SetsKey l r

/-- The next statement of a transaction that completes a task. From `publish` on, it works with the context that it
    read; from `writeBack` on, its variables are merged. -/
inductive PublishStep
  | read
  | publish (context : Dict)
  | writeBack (context vars : Dict)
  | commit (context vars : Dict)
  | ended
  deriving Repr

/-- The column with the context, and what the committed transactions have published. -/
structure Publishing (τ : Type) where
  context : Cell τ Dict
  published : List Dict := []
  step : τ → PublishStep

/-- The next statement of a transaction, its publishing, or its rollback. -/
inductive PublishEvent (τ : Type)
  | run (t : τ)
  | publish (t : τ) (vars : Dict)
  | rollback (t : τ)
  deriving Repr

namespace Publishing
variable {τ : Type} [DecidableEq τ] (m : MergeDicts) (s : Publishing τ) (t : τ)

def goTo (step : PublishStep) : Publishing τ := { s with step := Function.update s.step t step }

/-- The next statement of a transaction. The context is written back as a whole, if a key of it was assigned. -/
def execute : Publishing τ :=
  match s.step t with
  | .read => s.goTo t (.publish (s.context.read t))
  | .writeBack context vars =>
    if m.sets context vars then
      if (s.context.blocker t).isSome then s
      else { s.goTo t (.commit context vars) with context := s.context.write t (m.merge context vars) }
    else s.goTo t (.commit context vars)
  | .commit _ vars => { s.goTo t .ended with context := s.context.commit t, published := vars :: s.published }
  | _ => s

/-- The global variables of the task are evaluated, to anything. -/
def publish (vars : Dict) : Publishing τ :=
  match s.step t with
  | .publish context => s.goTo t (.writeBack context vars)
  | _ => s

/-- The transaction is undone. -/
def rollback : Publishing τ :=
  match s.step t with
  | .ended => s
  | _ => { s.goTo t .ended with context := s.context.rollback t }

/-- One event of the transactions. -/
def next : PublishEvent τ → Publishing τ
  | .run t => s.execute m t
  | .publish t vars => s.publish t vars
  | .rollback t => s.rollback t

/-- The context that the workflow execution begins with, and no task has published. -/
def start (context : Dict) : Publishing τ where
  context := { committed := context }
  step _ := .read

end Publishing

/-- The transactions that publish into one workflow context. -/
def publishSystem (τ : Type) [DecidableEq τ] (m : MergeDicts) : System (Publishing τ) (PublishEvent τ) where
  init s := ∃ context, s = Publishing.start context
  step := Publishing.next m

end Mistral
