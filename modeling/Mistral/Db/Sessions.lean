import Mistral.Lib.Caches

/-! Sessions and transactions of the threads of one process (`mistral/db/sqlalchemy/base.py`, and `transaction` of
    `mistral/db/v2/sqlalchemy/api.py`). -/

namespace Mistral.Sessions

/-- What SQLAlchemy does for a session: `new` is a session that has written nothing, over what is committed, and
    `commit` gives what is committed next, or raises. A rollback and a close may raise too. -/
structure Orm (δ ω ε : Type) where
  new : δ → ω
  dirty : ω → Bool
  commit : ω → Except ε δ
  rollback : ω → Except ε Unit
  close : ω → Except ε Unit

/-- The rollback and the close of a session raise nothing. -/
structure Orm.Quiet {δ ω ε : Type} (orm : Orm δ ω ε) : Prop where
  rollback : ∀ session, orm.rollback session = .ok ()
  close : ∀ session, orm.close session = .ok ()

/-- An exception: `DataAccessException`, one of Python's own, or one of the code that runs. -/
inductive Exc (ε : Type)
  | dataAccess (message : String)
  /-- A statement was run without a session. -/
  | attributeError
  | other (e : ε)
  deriving DecidableEq, Repr

/-- The message of `start_tx`. -/
def alreadyStarted : String := "Database transaction has already been started."

/-- The message of `commit_tx`. -/
def nothingToCommit : String := "Nothing to commit. Database transaction has not been previously started."

/-- The message of `rollback_tx`. -/
def nothingToRollBack : String := "Nothing to roll back. Database transaction has not been started."

/-- The message of `end_tx`. -/
def notStarted : String := "Database transaction has not been started."

/-- What a thread runs. Values that programs read from the database and branch on are in `V`. -/
inductive Code (ω ε K V : Type)
  | ret (v : V)
  | raise (e : Exc ε)
  | bind (c : Code ω ε K V) (k : V → Code ω ε K V)
  | tryExcept (c : Code ω ε K V) (handler : Exc ε → Code ω ε K V)
  /-- What a function does with the session that `session_aware` passes. -/
  | statement (f : ω → Except ε V × ω)
  /-- The call of a function that is decorated with `session_aware`. -/
  | sessionAware (c : Code ω ε K V)
  /-- `with db_api.transaction(read_only):`. -/
  | transaction (readOnly : Bool) (c : Code ω ε K V)
  /-- The call of a function that is decorated with `tx_cached`. -/
  | cached (key : K) (c : Code ω ε K V)

/-- What is left to do when a part of a program ends. -/
inductive Frame (ω ε K V : Type)
  | bind (k : V → Code ω ε K V)
  | tryExcept (handler : Exc ε → Code ω ε K V)
  | cached (key : K)
  | session (created : Bool)
  | transaction (readOnly : Bool)
  /-- The end of `with tx_lock:`. -/
  | lock

/-- What a thread does next: it evaluates code, it takes the lock, or it returns to the frame on top. -/
inductive Control (ω ε K V : Type)
  | eval (c : Code ω ε K V)
  /-- `_within_session` has the lock. -/
  | enterSession (c : Code ω ε K V)
  /-- `transaction` has the lock. -/
  | enterTx (readOnly : Bool) (c : Code ω ε K V)
  | done (r : Except (Exc ε) V)

/-- The thread-local variables. -/
structure Locals (ω K V : Type) where
  session : Option ω := none
  txScopedCache : Option (LruCache K V) := none
  deriving DecidableEq, Repr

/-- A thread: what it does next, what it returns to, and its thread-local variables. -/
structure Thread (ω ε K V : Type) where
  control : Control ω ε K V
  frames : List (Frame ω ε K V) := []
  locals : Locals ω K V := {}

/-- What the threads of the process share: the data that is committed, and the owner of `tx_lock` with the number of
    times it has the lock. -/
structure Shared (δ T : Type) where
  committed : δ
  txLock : Option (T × Nat) := none

/-! ### `base.py` -/

section
variable {δ ω ε K V T : Type}

/-- `_set_thread_local_session`. -/
def setThreadLocalSession (session : Option ω) : Locals ω K V := ⟨session, session.map fun _ => []⟩

/-- `_get_or_create_thread_local_session`. -/
def getOrCreateSession (orm : Orm δ ω ε) (d : δ) (l : Locals ω K V) : Locals ω K V × Bool :=
  match l.session with
  | some _ => (l, false)
  | none => (setThreadLocalSession (some (orm.new d)), true)

/-- `start_tx`. -/
def startTx (orm : Orm δ ω ε) (d : δ) (l : Locals ω K V) : Except (Exc ε) (Locals ω K V) :=
  match l.session with
  | some _ => .error (.dataAccess alreadyStarted)
  | none => .ok (setThreadLocalSession (some (orm.new d)))

/-- What is committed after the commit of a session, and the exception when the database refuses it. -/
def Orm.tryCommit (orm : Orm δ ω ε) (d : δ) (session : ω) : δ × Except (Exc ε) Unit :=
  match orm.commit session with
  | .ok d' => (d', .ok ())
  | .error e => (d, .error (.other e))

/-- `commit_tx`. -/
def commitTx (orm : Orm δ ω ε) (d : δ) (l : Locals ω K V) : δ × Except (Exc ε) Unit :=
  match l.session with
  | none => (d, .error (.dataAccess nothingToCommit))
  | some session => orm.tryCommit d session

/-- `rollback_tx`. -/
def rollbackTx (orm : Orm δ ω ε) (d : δ) (l : Locals ω K V) : Except (Exc ε) (Locals ω K V) :=
  match l.session with
  | none => .error (.dataAccess nothingToRollBack)
  | some session => do
    (orm.rollback session).mapError .other
    return { l with session := some (orm.new d) }

/-- There is no `finally` here: the session stays with the thread when its rollback or its close raises. -/
def endTx (orm : Orm δ ω ε) (d : δ) (l : Locals ω K V) : Except (Exc ε) (Locals ω K V) :=
  match l.session with
  | none => .error (.dataAccess notStarted)
  | some session => do
    let l' ← if orm.dirty session then rollbackTx orm d l else pure l
    (orm.close (l'.session.getD session)).mapError .other
    return setThreadLocalSession none

/-- What `_within_session` does with the session that it has created. The exceptions of the rollback and of the close
    replace the one before them. -/
def closeSession (orm : Orm δ ω ε) (session : ω) (r : Except (Exc ε) V) : Except (Exc ε) V :=
  let r := match r with
    | .ok v => .ok v
    | .error e => do
      (orm.rollback session).mapError .other
      .error e
  do
    (orm.close session).mapError .other
    r

/-- What `_within_session` does after `func`. -/
def leaveSession (orm : Orm δ ω ε) (created : Bool) (r : Except (Exc ε) V) (d : δ) (l : Locals ω K V) :
    δ × Except (Exc ε) V × Locals ω K V :=
  match created, l.session, r with
  | true, some session, .ok v =>
    let (d', committed) := orm.tryCommit d session
    (d', closeSession orm session (committed.map fun _ => v), setThreadLocalSession none)
  | true, some session, .error e => (d, closeSession orm session (.error e), setThreadLocalSession none)
  | true, none, r => (d, r, setThreadLocalSession none)
  | false, _, r => (d, r, l)

/-- What `transaction` does after the body. An exception in its `finally` block replaces the one before it. -/
def leaveTx (orm : Orm δ ω ε) (readOnly : Bool) (r : Except (Exc ε) V) (d : δ) (l : Locals ω K V) :
    δ × Except (Exc ε) V × Locals ω K V :=
  let (d', l', r') : δ × Locals ω K V × Except (Exc ε) V :=
    match r with
    | .error e => (d, l, .error e)
    | .ok v =>
      if readOnly then
        match rollbackTx orm d l with
        | .error e => (d, l, .error e)
        | .ok l' => (d, l', .ok v)
      else
        let (d', committed) := commitTx orm d l
        (d', l, committed.map fun _ => v)
  match endTx orm d' l' with
  | .error e => (d', .error e, l')
  | .ok l'' => (d', r', l'')

/-! ### The steps of a thread -/

/-- What the frame of a program does with the result of its part, where that concerns the thread alone. -/
def Frame.receive [DecidableEq K] (frame : Frame ω ε K V) (r : Except (Exc ε) V) (l : Locals ω K V) :
    Control ω ε K V × Locals ω K V :=
  match frame, r with
  | .bind k, .ok v => (.eval (k v), l)
  | .tryExcept handler, .error e => (.eval (handler e), l)
  | .cached key, .ok v => (.done (.ok v), { l with txScopedCache := l.txScopedCache.map (·.use 1000 key v) })
  | _, r => (.done r, l)

/-- `tx_lock.acquire()`, when the lock is free or has the same owner. -/
def acquire [DecidableEq T] (t : T) : Option (T × Nat) → Option (T × Nat)
  | none => some (t, 1)
  | some (u, n) => if u = t then some (t, n + 1) else none

/-- The end of `with tx_lock:`; the lock is free when its owner has left as often as it has entered. -/
def release : Option (T × Nat) → Option (T × Nat)
  | some (t, n + 2) => some (t, n + 1)
  | _ => none

/-- A step of the thread `t`. It changes nothing when the program is at its end, or waits for the lock. -/
def Thread.step [DecidableEq T] [DecidableEq K] (orm : Orm δ ω ε) (t : T) (s : Shared δ T) (th : Thread ω ε K V) :
    Shared δ T × Thread ω ε K V :=
  match th.control with
  | .eval (.ret v) => (s, { th with control := .done (.ok v) })
  | .eval (.raise e) => (s, { th with control := .done (.error e) })
  | .eval (.bind c k) => (s, { th with control := .eval c, frames := .bind k :: th.frames })
  | .eval (.tryExcept c handler) => (s, { th with control := .eval c, frames := .tryExcept handler :: th.frames })
  | .eval (.statement f) =>
    match th.locals.session with
    | none => (s, { th with control := .done (.error .attributeError) })
    | some session =>
      let (r, session') := f session
      (s, { th with
        control := .done (r.mapError .other)
        locals := { th.locals with session := some session' } })
  | .eval (.sessionAware c) =>
    match acquire t s.txLock with
    | none => (s, th)
    | some held => ({ s with txLock := some held },
        { th with control := .enterSession c, frames := .lock :: th.frames })
  | .eval (.transaction readOnly c) =>
    match acquire t s.txLock with
    | none => (s, th)
    | some held => ({ s with txLock := some held },
        { th with control := .enterTx readOnly c, frames := .lock :: th.frames })
  | .eval (.cached key c) =>
    match th.locals.txScopedCache with
    | none => (s, { th with control := .eval c })
    | some cache =>
      match cache.lookup key with
      | some v => (s, { th with
          control := .done (.ok v)
          locals := { th.locals with txScopedCache := some (cache.use 1000 key v) } })
      | none => (s, { th with control := .eval c, frames := .cached key :: th.frames })
  | .enterSession c =>
    let (l, created) := getOrCreateSession orm s.committed th.locals
    (s, { control := .eval c, frames := .session created :: th.frames, locals := l })
  | .enterTx readOnly c =>
    match startTx orm s.committed th.locals with
    | .error e => (s, { th with control := .done (.error e) })
    | .ok l => (s, { control := .eval c, frames := .transaction readOnly :: th.frames, locals := l })
  | .done r =>
    match th.frames with
    | [] => (s, th)
    | .session created :: frames =>
      let (d, r', l) := leaveSession orm created r s.committed th.locals
      ({ s with committed := d }, { control := .done r', frames, locals := l })
    | .transaction readOnly :: frames =>
      let (d, r', l) := leaveTx orm readOnly r s.committed th.locals
      ({ s with committed := d }, { control := .done r', frames, locals := l })
    | .lock :: frames => ({ s with txLock := release s.txLock }, { th with frames })
    | frame :: frames =>
      let (control, l) := frame.receive r th.locals
      (s, { control, frames, locals := l })

end

/-! ### The process -/

/-- A process with its threads. -/
structure Process (δ ω ε K V T : Type) extends Shared δ T where
  threads : T → Thread ω ε K V

section
variable {δ ω ε K V T : Type} [DecidableEq T] [DecidableEq K] (orm : Orm δ ω ε)

/-- The next step of a thread. -/
def Process.step (p : Process δ ω ε K V T) (t : T) : Process δ ω ε K V T :=
  let (s, th) := (p.threads t).step orm t p.toShared
  { s with threads := Function.update p.threads t th }

/-- The threads take their steps in the given order. -/
def Process.run (p : Process δ ω ε K V T) (ls : List T) : Process δ ω ε K V T := ls.foldl (·.step orm ·) p

/-- The threads start with the programs, over the data. -/
def Process.start (programs : T → Code ω ε K V) (d : δ) : Process δ ω ε K V T :=
  { committed := d, threads := fun t => { control := .eval (programs t) } }

end

end Mistral.Sessions
