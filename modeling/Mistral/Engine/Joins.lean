import Mathlib.Data.String.Basic
import Mistral.Engine.Rearranging
import Mistral.Lib.ReadCommitted
import Mistral.Lib.System

/-! Concurrent transactions that defer joins (`Task.defer` in `mistral/engine/tasks.py`), statement by statement. The
    named locks are those of `named_lock` in `mistral/db/v2/sqlalchemy/api.py`: a row that is inserted, and deleted
    again, keeps its name from other transactions until its own ends. -/

namespace Mistral

/-- Every command for a join has a unique key: `_configure_if_join` sets both. -/
def Keyed (cmds : List Cmd) : Prop := ∀ cmd ∈ cmds, cmd.isWaiting → cmd.uniqueKey?.isSome

/-- A sort that puts no command after one that the comparison wants behind it. -/
structure OrderedSort extends ListSort where
  ordered : ∀ cmds, Keyed cmds → (sort cmds).IsChain fun a b => compareTaskCommands a b ≤ 0

theorem compareTaskCommands_le {a b : Cmd} (ha : a.isWaiting → a.uniqueKey?.isSome) (hb : b.isWaiting → b.uniqueKey?.isSome)
    (h : a.isWaiting = false ∨ b.isWaiting ∧ a.uniqueKey?.getD "" ≤ b.uniqueKey?.getD "") : compareTaskCommands a b ≤ 0 := by
  unfold compareTaskCommands
  by_cases hwa : a.isWaiting
  · obtain ⟨hwb, hle⟩ := h.resolve_left (by simp [hwa])
    obtain ⟨ka, hka⟩ := Option.isSome_iff_exists.mp (ha hwa)
    obtain ⟨kb, hkb⟩ := Option.isSome_iff_exists.mp (hb hwb)
    simp only [hka, hkb, Option.getD_some] at hle
    simp only [hwa, hwb, hka, hkb, Bool.not_true, Bool.false_eq_true, if_false, Option.getD_some, Option.some.injEq]
    obtain hlt | rfl := lt_or_eq_of_le hle
    · rw [if_neg hlt.ne, if_pos hlt]
      decide
    · simp
  · simp [hwa]

/-- The order that the comparison stands for. -/
def Cmd.comesBefore (a b : Cmd) : Bool :=
  !a.isWaiting || (b.isWaiting && decide (a.uniqueKey?.getD "" ≤ b.uniqueKey?.getD ""))

theorem ordered_mergeSort {cmds : List Cmd} (hkeyed : Keyed cmds) :
    (cmds.mergeSort Cmd.comesBefore).IsChain fun a b => compareTaskCommands a b ≤ 0 := by
  have hmem : ∀ c ∈ cmds.mergeSort Cmd.comesBefore, c.isWaiting → c.uniqueKey?.isSome := fun c hc =>
    hkeyed c ((List.mergeSort_perm cmds _).mem_iff.mp hc)
  refine List.Pairwise.isChain ((List.pairwise_mergeSort ?_ ?_ cmds).imp_of_mem fun {a b} ha hb h => ?_)
  · intro a b c hab hbc
    simp only [Cmd.comesBefore, Bool.or_eq_true, Bool.not_eq_true', Bool.and_eq_true, decide_eq_true_eq] at hab hbc ⊢
    obtain hab | ⟨hb, hab⟩ := hab
    · exact .inl hab
    · obtain hbc | ⟨hc, hbc⟩ := hbc
      · simp [hb] at hbc
      · exact .inr ⟨hc, hab.trans hbc⟩
  · intro a b
    obtain h | h := le_total (a.uniqueKey?.getD "") (b.uniqueKey?.getD "") <;> unfold Cmd.comesBefore <;>
      cases a.isWaiting <;> cases b.isWaiting <;> simp [h]
  · exact compareTaskCommands_le (hmem a ha) (hmem b hb) (by simpa [Cmd.comesBefore] using h)

instance : Inhabited OrderedSort :=
  ⟨⟨fun cmds => cmds.mergeSort Cmd.comesBefore, fun cmds => List.mergeSort_perm cmds _⟩, fun _ => ordered_mergeSort⟩

/-- The unique keys of the joins that `_process_commands` defers, in their order: those before a command that sets the
    state of the workflow. -/
def deferredKeys (ls : ListSort) (cmds : List Cmd) : List String :=
  (((rearrangeCommands ls cmds).takeWhile (!·.isSetWorkflowState)).filter (·.isWaiting)).map (·.uniqueKey?.getD "")

/-- The next statement of `defer` for the first join of a transaction. -/
inductive DeferStep
  | check
  | lock
  | reread
  | create
  | setWaiting (row : Nat) (st : State)
  deriving DecidableEq, Repr

/-- `duplicateKey`: an insertion violates the unique key of `task_executions_v2`. -/
inductive TxStatus
  | running
  | committed
  | rolledBack
  | duplicateKey
  deriving DecidableEq, Repr

/-- A transaction: the keys of the joins that it still has to defer, and the executions that it ended up with. -/
structure DeferTx where
  todo : List String
  next : DeferStep := .check
  found : List (String × Nat) := []
  status : TxStatus := .running
  deriving DecidableEq, Repr

/-- The joins of a workflow execution, the names in `named_locks` with the transactions that inserted them, and the
    transactions. -/
structure Joins (τ : Type) where
  rows : List (Row τ State)
  locks : List (τ × String) := []
  txs : τ → DeferTx

namespace Joins
variable {τ : Type} [DecidableEq τ] (s : Joins τ) (t : τ)

def setTx (tx : DeferTx) : Joins τ := { s with txs := Function.update s.txs t tx }

/-- The end of `defer` for the first join: `self.task_ex` is the given row. -/
def got (row : Nat) : Joins τ :=
  match (s.txs t).todo with
  | [] => s
  | k :: ks => s.setTx t { s.txs t with todo := ks, next := .check, found := (k, row) :: (s.txs t).found }

def goTo (next : DeferStep) : Joins τ := s.setTx t { s.txs t with next }

/-- The transaction ends: its locks are free. -/
def finish (status : TxStatus) (f : Cell τ (Option State) → Cell τ (Option State)) : Joins τ :=
  { rows := s.rows.map fun row => { row with cell := f row.cell }, locks := s.locks.filter (·.1 ≠ t),
    txs := Function.update s.txs t { s.txs t with status } }

/-- The first of the executions with the given key that the transaction sees, with its state. -/
def find? (k : String) (p : State → Bool) : Option (Nat × State) :=
  s.rows.zipIdx.findSome? fun (row, i) => if row.key = k then ((row.cell.read t).filter p).map (i, ·) else none

/-- The transaction that the next statement of `t` has to wait for: one that inserted the same name, one that
    inserted the same unique key, or one that updated the same row. -/
def blocker : Option τ :=
  match (s.txs t).todo, (s.txs t).next with
  | k :: _, .lock => (s.locks.find? fun l => l.2 = k ∧ l.1 ≠ t).map (·.1)
  | k :: _, .create => (s.rows.filter (·.key = k)).findSome? (·.cell.blocker t)
  | _ :: _, .setWaiting r _ => s.rows[r]?.bind (·.cell.blocker t)
  | _, _ => none

/-- The transaction `t` waits for `u`. -/
def Waits (u : τ) : Prop := (s.txs t).status = .running ∧ s.blocker t = some u

/-- The next statement of `defer`, or the commit. -/
def execute : Joins τ :=
  match (s.txs t).todo, (s.txs t).next with
  | [], _ => s.finish t .committed (·.commit t)
  | k :: _, .check =>
    match s.find? t k (· = .waiting) with
    | some (r, _) => s.got t r
    | none => s.goTo t .lock
  | k :: _, .lock => { s.goTo t .reread with locks := (t, k) :: s.locks }
  | k :: _, .reread =>
    match s.find? t k fun _ => true with
    | some (r, st) => if st = .waiting then s.got t r else s.goTo t (.setWaiting r st)
    | none => s.goTo t .create
  | k :: _, .create =>
    if (s.find? t k fun _ => true).isSome then s.finish t .duplicateKey (·.rollback t)
    else { s.got t s.rows.length with rows := s.rows ++ [⟨k, { committed := none, pending := some (t, some .waiting) }⟩] }
  | _ :: _, .setWaiting r st =>
    { s.got t r with
      rows := s.rows.modify r fun row =>
        if row.cell.read t = some st then { row with cell := row.cell.write t (some .waiting) } else row }

end Joins

/-- A transaction takes its next statement, or is rolled back. -/
inductive DeferEvent (τ : Type)
  | run (t : τ)
  | rollback (t : τ)
  deriving DecidableEq, Repr

/-- A statement that has to wait does nothing yet. -/
def Joins.step {τ : Type} [DecidableEq τ] (s : Joins τ) : DeferEvent τ → Joins τ
  | .run t => if (s.txs t).status = .running ∧ s.blocker t = none then s.execute t else s
  | .rollback t => if (s.txs t).status = .running then s.finish t .rolledBack (·.rollback t) else s

/-- The executions of joins that exist when the transactions begin; the unique key holds of them. -/
structure StoredJoins where
  joins : List (String × State)
  unique : (joins.map Prod.fst).Nodup

/-- The commands that a transaction dispatches. -/
structure JoinCmds where
  cmds : List Cmd
  keyed : Keyed cmds

/-- Any number of transactions. -/
def Joins.start {τ : Type} (ls : ListSort) (stored : StoredJoins) (txs : τ → JoinCmds) : Joins τ where
  rows := stored.joins.map fun (key, st) => ⟨key, { committed := some st }⟩
  txs t := { todo := deferredKeys ls (txs t).cmds }

/-- The transactions that defer joins, from the executions that are stored. -/
def deferSystem (τ : Type) [DecidableEq τ] (ls : ListSort) : System (Joins τ) (DeferEvent τ) where
  init s := ∃ stored txs, s = Joins.start ls stored txs
  step := Joins.step

end Mistral
