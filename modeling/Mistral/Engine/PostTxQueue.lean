/-! The operations that run after a transaction (`mistral/engine/post_tx_queue.py`), and the retries of the queue
    that they wait in (`mistral/db/utils.py`). -/

namespace Mistral

/-- How a call of an operation ends: it returns, or raises one of `_RETRY_ERRORS`, or another exception. -/
inductive Ending
  | returns
  | dbError
  | fails
  deriving DecidableEq, Repr

/-- A registered operation: the flag `in_tx`, and for each attempt of its queue, how the call of `func` ends and what
    it registers. -/
inductive Operation
  | mk (inTx : Bool) (ending : Nat → Ending) (registers : Nat → List Operation)

namespace Operation

/-- The operation runs in a transaction of its own. -/
def inTx : Operation → Bool
  | mk b _ _ => b

/-- How the attempts of the operation end. -/
def ending : Operation → Nat → Ending
  | mk _ f _ => f

/-- What an attempt of the operation registers. -/
def registers : Operation → Nat → List Operation
  | mk _ _ g => g

/-- The exception of a transactional operation is raised again; that of another one is logged. -/
def raises (op : Operation) (n : Nat) : Bool := op.inTx && op.ending n != .returns

end Operation

/-- One attempt of a queue: the first `called` operations are called, `nested` is what they register, and `ending` is
    how the attempt ends. -/
structure Attempt where
  number : Nat
  called : Nat
  nested : List Operation
  ending : Ending

/-- The loop of `_process_queue`. -/
def processOperations (n : Nat) : List Operation → Attempt
  | [] => ⟨n, 0, [], .returns⟩
  | op :: ops =>
    if op.raises n then ⟨n, 1, op.registers n, op.ending n⟩
    else
      let a := processOperations n ops
      { a with called := a.called + 1, nested := op.registers n ++ a.nested }

/-- `stop_after_attempt(50)`. -/
def maxAttempts : Nat := 50

/-- The attempts from number `n` on, and the queue that the decorator `run` hands to a new thread: only an attempt
    that returns gets there, and the operations that other attempts registered are cleared. -/
def retryQueue (queue : List Operation) : Nat → Nat → List Attempt × List Operation
  | 0, _ => ([], [])
  | left + 1, n =>
    let a := processOperations n queue
    match a.ending with
    | .returns => ([a], a.nested)
    | .fails => ([a], [])
    | .dbError =>
      let (as, next) := retryQueue queue left (n + 1)
      (a :: as, next)

/-- `_process_queue` with its decorators. -/
def processQueue (queue : List Operation) : List Attempt × List Operation := retryQueue queue maxAttempts 0

/-- The queues of the threads that follow one another. -/
def generation (queue : List Operation) : Nat → List Operation
  | 0 => queue
  | n + 1 => (processQueue (generation queue n)).2

end Mistral
