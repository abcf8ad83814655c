import Mathlib.Logic.Function.Basic
import Mistral.Lib.ReadCommitted
import Mistral.Lib.System

/-! Dynamic actions, whose code is stored in the database (`mistral/actions/dynamic_action.py`, `update_code_source` in
    `mistral/db/v2/sqlalchemy/api.py`): updates of one code source, and lookups of its actions, under READ COMMITTED. -/

namespace Mistral
namespace DynamicActions

/-- A row of `CodeSource`. A module is known by the content that it is loaded from. -/
structure CodeSource (γ : Type) where
  version : Nat
  content : γ
  deriving DecidableEq, Repr

/-- How far a transaction with `update_code_source` has got. -/
inductive Update (γ : Type)
  | start
  | loaded (codeSrc : CodeSource γ)
  | flushed
  | ended
  deriving DecidableEq, Repr

/-- How far a call of `find` has got: `take` is the second access to the cache, after a comparison that found no
    higher version. -/
inductive Lookup (γ : Type)
  | start
  | compare (dbVer : Nat)
  | take (dbVer : Nat)
  | load
  | store (codeSrc : CodeSource γ)
  | found (module : γ)
  | keyError
  deriving DecidableEq, Repr

/-- Transactions `τ`, engine processes `π` and lookups `ι`. -/
structure Store (τ π ι γ : Type) where
  source : Cell τ (CodeSource γ)
  updates : τ → Update γ
  /-- `_code_sources` of each process: the module and its version. -/
  codeSources : π → Option (γ × Nat)
  lookups : ι → Lookup γ
  /-- What has been committed, the oldest first. -/
  committed : List (CodeSource γ)
  /-- How much had been committed when a lookup began. -/
  since : ι → Nat

/-- The next statement of an update, or of a lookup. -/
inductive Event (τ ι γ : Type)
  | load (t : τ)
  | flush (t : τ) (content : γ)
  | commit (t : τ)
  | rollback (t : τ)
  | lookup (l : ι)
  deriving DecidableEq, Repr

namespace Store
variable {τ π ι γ : Type} [DecidableEq τ] [DecidableEq π] [DecidableEq ι] [DecidableEq γ]
variable (process : ι → π) (s : Store τ π ι γ)

/-- The row after the `UPDATE`, which sets the columns that the transaction has changed. -/
def updated (t : τ) (codeSrc : CodeSource γ) (content : γ) : CodeSource γ where
  version := codeSrc.version + 1
  content := if content = codeSrc.content then (s.source.read t).content else content

/-- `get_code_source` of `update_code_source`. -/
def load (t : τ) : Store τ π ι γ :=
  match s.updates t with
  | .start => { s with updates := Function.update s.updates t (.loaded (s.source.read t)) }
  | _ => s

/-- The `UPDATE` of `update_code_source`, which waits for another one that has not ended. -/
def flush (t : τ) (content : γ) : Store τ π ι γ :=
  match s.updates t with
  | .loaded codeSrc =>
    if (s.source.blocker t).isSome then s
    else { s with
      source := s.source.write t (s.updated t codeSrc content)
      updates := Function.update s.updates t .flushed }
  | _ => s

def commit (t : τ) : Store τ π ι γ :=
  match s.updates t with
  | .flushed => { s with
      source := s.source.commit t
      updates := Function.update s.updates t .ended
      committed := s.committed ++ [s.source.read t] }
  | _ => s

def rollback (t : τ) : Store τ π ι γ :=
  { s with source := s.source.rollback t, updates := Function.update s.updates t .ended }

def goTo (l : ι) (next : Lookup γ) : Store τ π ι γ := { s with lookups := Function.update s.lookups l next }

/-- `ensure_latest_module_version`, one query or one access to the cache at a time. -/
def lookup (l : ι) : Store τ π ι γ :=
  match s.lookups l with
  | .start => { s.goTo l (.compare s.source.committed.version) with
      since := Function.update s.since l s.committed.length }
  | .compare dbVer =>
    match s.codeSources (process l) with
    | some (_, version) => if version < dbVer then s.goTo l .load else s.goTo l (.take dbVer)
    | none => s.goTo l .load
  | .take _ =>
    match s.codeSources (process l) with
    | some (module, _) => s.goTo l (.found module)
    | none => s.goTo l .keyError
  | .load => s.goTo l (.store s.source.committed)
  | .store codeSrc => { s.goTo l (.found codeSrc.content) with
      codeSources := Function.update s.codeSources (process l) (some (codeSrc.content, codeSrc.version)) }
  | .found _ | .keyError => s

def step : Event τ ι γ → Store τ π ι γ
  | .load t => s.load t
  | .flush t content => s.flush t content
  | .commit t => s.commit t
  | .rollback t => s.rollback t
  | .lookup l => s.lookup process l

/-- A stored code source, before any update or lookup. -/
def initial (codeSrc : CodeSource γ) : Store τ π ι γ where
  source := ⟨codeSrc, none⟩
  updates _ := .start
  codeSources _ := none
  lookups _ := .start
  committed := [codeSrc]
  since _ := 0

end Store

/-- The runs of all transactions and lookups. -/
def runs {τ π ι γ : Type} [DecidableEq τ] [DecidableEq π] [DecidableEq ι] [DecidableEq γ] (process : ι → π) :
    System (Store τ π ι γ) (Event τ ι γ) where
  init s := ∃ codeSrc, s = .initial codeSrc
  step s e := s.step process e

end DynamicActions
end Mistral
